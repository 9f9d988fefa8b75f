import LcmX.Lib.KeyedTable
import LcmX.Lib.PyText
import Mathlib

/-!
# The query-view store

Evidence views that are derived from the messages, the versions and sources of each view,
and the corpus state with its event log, which triggers on the messages keep up. A call that
raises leaves the store as it was.

Digests, nonces and the clock are arguments; times are rational seconds. The JSON texts of
identities, manifests and traces stand for themselves.
-/
namespace QueryView

attribute [local instance] PyText.lawfulBEq_text

abbrev Text := List Char

def maxDependencies : Nat := 40
def buildLeaseSeconds : Rat := 300

structure Message where
  sessionId : Text
  conversationId : Option Text
  source : Option Text
  role : Text
  content : Option Text
  timestamp : Rat
  deriving DecidableEq, Repr

inductive Mutation where
  | insert | update | delete
  deriving DecidableEq, Repr

structure Event where
  generation : Nat
  storeId : Nat
  mutation : Mutation
  sessionId : Text
  conversationId : Text
  source : Text
  role : Text
  sourceTimestamp : Rat
  changedAt : Rat
  deriving DecidableEq, Repr

structure CorpusSnapshot where
  generation : Nat
  maxStoreId : Nat
  rowCount : Nat
  deriving DecidableEq, Repr

inductive Status where
  | ready | stale | building | failed | expired
  deriving DecidableEq, Repr

inductive Promotion where
  | probationary | promoted
  deriving DecidableEq, Repr

inductive Completeness where
  | complete | incomplete
  deriving DecidableEq, Repr

structure View where
  identityJson : Text
  status : Status
  generation : Nat
  currentVersion : Nat
  buildNonce : Text
  leaseExpiresAt : Option Rat
  staleReason : Text
  hitCount : Nat
  promotionStatus : Promotion
  createdAt : Rat
  updatedAt : Rat
  expiresAt : Option Rat
  deriving DecidableEq, Repr

/-- The update that takes a view out of use and ends its build. -/
def View.toStale (reason : Text) (now : Rat) (view : View) : View :=
  { view with
    status := .stale
    generation := view.generation + 1
    staleReason := reason
    buildNonce := []
    leaseExpiresAt := none
    updatedAt := now }

/-- The update at the end of the lifetime; it leaves the build columns as they are. -/
def View.toExpired (now : Rat) (view : View) : View :=
  { view with
    status := .expired
    generation := view.generation + 1
    staleReason := "ttl_expired".toList
    updatedAt := now }

def View.toFailed (reason : Text) (now : Rat) (view : View) : View :=
  { view with
    status := .failed
    staleReason := reason
    buildNonce := []
    leaseExpiresAt := none
    updatedAt := now }

def View.toReady (version : Nat) (now expiresAt : Rat) (view : View) : View :=
  { view with
    status := .ready
    currentVersion := version
    buildNonce := []
    leaseExpiresAt := none
    staleReason := []
    updatedAt := now
    expiresAt := some expiresAt }

structure Version where
  manifestJson : Text
  traceJson : Text
  completeness : Completeness
  searchPolicyVersion : Text
  corpusGeneration : Nat
  coverageStoreId : Nat
  publishedAt : Rat
  expiresAt : Option Rat
  supersedesVersion : Option Nat
  deriving DecidableEq, Repr

section

variable {H : Type} [DecidableEq H]

structure Dependency (H : Type) where
  sourceStoreId : Nat
  sourceContentSha256 : H
  sourceSessionId : Text
  sourceConversationId : Text
  sourceName : Text
  sourceRole : Text
  sourceTimestamp : Rat
  spanStart : Nat
  spanEnd : Nat
  quote : Text
  assertionId : Text
  deriving DecidableEq, Repr

/-- The tables, and the assertions that are valid at their source. -/
structure Db (H : Type) where
  messages : KeyedTable Nat Message
  corpus : CorpusSnapshot
  events : List Event
  views : KeyedTable H View
  versions : KeyedTable (H × Nat) Version
  sources : List (H × Nat × Dependency H)
  assertions : List Text

/-- The schema over a store of messages. -/
def ensureSchema (messages : KeyedTable Nat Message) (assertions : List Text) : Db H where
  messages := messages
  corpus := ⟨0, (messages.rows.map Prod.fst).foldl max 0, messages.rows.length⟩
  events := []
  views := KeyedTable.empty
  versions := KeyedTable.empty
  sources := []
  assertions := assertions

/-! ## The triggers on the messages -/

/-- The event of a mutation; a missing column that may not be null makes the statement fail. -/
def eventOf (generation storeId : Nat) (mutation : Mutation) (message : Message) (changedAt : Rat) : Option Event :=
  match message.conversationId, message.source with
  | some conversationId, some source =>
    if 0 < storeId then
      some ⟨generation, storeId, mutation, message.sessionId, conversationId, source, message.role,
        message.timestamp, changedAt⟩
    else none
  | _, _ => none

/-- A source of the current version of a view. -/
def dependsOn (db : Db H) (storeId : Nat) (viewId : H) (view : View) : Bool :=
  db.sources.any fun s => s.1 = viewId ∧ s.2.1 = view.currentVersion ∧ s.2.2.sourceStoreId = storeId

/-- The views that lean on a row lose it. -/
def staleDependents (db : Db H) (storeId : Nat) (reason : Text) (now : Rat) : KeyedTable H View :=
  db.views.updateAll (fun viewId view => (view.status = .ready ∨ view.status = .building) ∧
    dependsOn db storeId viewId view)
    (View.toStale reason now)

/-- An insert with its trigger. -/
def insertMessage (storeId : Nat) (message : Message) (now : Rat) (db : Db H) : Db H :=
  match db.messages.get storeId, eventOf (db.corpus.generation + 1) storeId .insert message now with
  | none, some event =>
    { db with
      messages := db.messages.insert storeId message
      corpus := ⟨db.corpus.generation + 1, max db.corpus.maxStoreId storeId, db.corpus.rowCount + 1⟩
      events := db.events ++ [event] }
  | _, _ => db

/-- An update of the columns that the trigger watches. -/
def updateMessage (storeId : Nat) (message : Message) (now : Rat) (db : Db H) : Db H :=
  match db.messages.get storeId, eventOf (db.corpus.generation + 1) storeId .update message now with
  | some _, some event =>
    { db with
      messages := db.messages.modify storeId fun _ => message
      corpus :=
        { db.corpus with generation := db.corpus.generation + 1, maxStoreId := max db.corpus.maxStoreId storeId }
      events := db.events ++ [event]
      views := staleDependents db storeId "positive_source_updated".toList now }
  | _, _ => db

def deleteMessage (storeId : Nat) (now : Rat) (db : Db H) : Db H :=
  match db.messages.get storeId with
  | none => db
  | some message =>
    match eventOf (db.corpus.generation + 1) storeId .delete message now with
    | none => db
    | some event =>
      { db with
        messages := db.messages.delete fun id => id = storeId
        corpus := { db.corpus with generation := db.corpus.generation + 1, rowCount := db.corpus.rowCount - 1 }
        events := db.events ++ [event]
        views := staleDependents db storeId "positive_source_deleted".toList now }

/-! ## Building -/

structure QueryViewBuildToken (H : Type) where
  viewId : H
  generation : Nat
  nonce : Text
  baseVersion : Nat
  corpusGeneration : Nat
  coverageStoreId : Nat
  deriving DecidableEq, Repr

/-- What the store takes from outside: the digest of a text, and the checks of a publication before its transaction. -/
structure Host (H M : Type) where
  sha256 : Text → H
  policyKey : Text → Except String Text
  validatedPayloads : M → List (Dependency H) → Completeness → Except String (Text × Text)

variable {M : Type} (host : Host H M)

/-- The row that `claim_build` leaves: a new one, or the old one when no live build holds it. -/
def claimRow (canonical nonce : Text) (now : Rat) (old : Option View) : View :=
  match old with
  | none => ⟨canonical, .building, 0, 0, nonce, some (now + buildLeaseSeconds), [], 0, .probationary, now, now, none⟩
  | some view =>
    if view.status ≠ .building ∨ view.leaseExpiresAt.getD 0 ≤ now then
      { view with
        status := .building
        generation := view.generation + 1
        buildNonce := nonce
        leaseExpiresAt := some (now + buildLeaseSeconds)
        staleReason := []
        updatedAt := now }
    else view

/-- `claim_build`, with the identity as its canonical text. -/
def claimBuild (canonical : Text) (snapshot : CorpusSnapshot) (nonce : Text) (now : Rat) (db : Db H) :
    Db H × Except String (QueryViewBuildToken H) :=
  let viewId := host.sha256 canonical
  let row := claimRow canonical nonce now (db.views.get viewId)
  if row.identityJson ≠ canonical then (db, .error "query-view hash collision or identity corruption")
  else if row.buildNonce ≠ nonce then (db, .error "query-view build already has an active lease")
  else ({ db with views := (db.views.insert viewId row).modify viewId fun _ => row },
    .ok ⟨viewId, row.generation, row.buildNonce, row.currentVersion, snapshot.generation, snapshot.maxStoreId⟩)

/-- A message row as a dependency describes it. -/
def matchesRow (dependency : Dependency H) (row : Message) : Bool :=
  host.sha256 (row.content.getD []) = dependency.sourceContentSha256 ∧
    ((row.content.getD []).take dependency.spanEnd).drop dependency.spanStart = dependency.quote ∧
    row.sessionId = dependency.sourceSessionId ∧ row.conversationId.getD [] = dependency.sourceConversationId ∧
    row.source.getD [] = dependency.sourceName ∧ row.role = dependency.sourceRole ∧
      row.timestamp = dependency.sourceTimestamp

/-- `_validate_dependency_current`. -/
def validateDependencyCurrent (db : Db H) (dependency : Dependency H) : Except String Unit :=
  match db.messages.get dependency.sourceStoreId with
  | none => .error ("dependency source " ++ toString dependency.sourceStoreId ++ " was deleted")
  | some row =>
    if host.sha256 (row.content.getD []) ≠ dependency.sourceContentSha256 then
      .error ("dependency source " ++ toString dependency.sourceStoreId ++ " hash changed")
    else if ((row.content.getD []).take dependency.spanEnd).drop dependency.spanStart ≠ dependency.quote then
      .error ("dependency source " ++ toString dependency.sourceStoreId ++ " span changed")
    else if ¬ matchesRow host dependency row then
      .error ("dependency source " ++ toString dependency.sourceStoreId ++ " metadata changed")
    else if dependency.assertionId ≠ [] ∧ dependency.assertionId ∉ db.assertions then
      .error ("dependency assertion " ++ String.ofList dependency.assertionId ++ " is not source-valid")
    else .ok ()

structure Publication (H M : Type) where
  dependencies : List (Dependency H)
  manifest : M
  completeness : Completeness
  searchPolicyVersion : Text
  ttlSeconds : Nat

def Owns (token : QueryViewBuildToken H) (view : View) : Prop :=
  view.status = .building ∧ view.generation = token.generation ∧ view.buildNonce = token.nonce

instance (token : QueryViewBuildToken H) (view : View) : Decidable (Owns token view) := by
  unfold Owns
  infer_instance

/-- The keys and the checks of the table of sources. -/
def insertable (dependencies : List (Dependency H)) : Bool :=
  (dependencies.map fun d => (d.sourceStoreId, d.spanStart, d.spanEnd)).Nodup ∧
    ∀ d ∈ dependencies, 0 < d.sourceStoreId ∧ d.spanStart < d.spanEnd

/-- The write transaction of `publish_ready`. -/
def publishTransaction (token : QueryViewBuildToken H) (dependencies : List (Dependency H)) (payload : Text × Text)
    (completeness : Completeness) (policy : Text) (ttl : Nat) (now : Rat) (db : Db H) : Db H × Except String Bool :=
  match db.views.get token.viewId with
  | none => (db, .error "unknown query view")
  | some owner =>
    if ¬ Owns token owner then (db, .ok false)
    else if db.corpus.generation ≠ token.corpusGeneration then
      ({ db with
          views := db.views.updateWhere token.viewId (fun view => Owns token view)
            (View.toStale "corpus_changed_during_build".toList now) },
        .ok false)
    else match dependencies.forM (validateDependencyCurrent host db) with
      | .error message => (db, .error message)
      | .ok () =>
        if owner.currentVersion ≠ token.baseVersion then (db, .ok false)
        else
          let version := owner.currentVersion + 1
          if (db.versions.get (token.viewId, version)).isSome ∨ ¬ insertable dependencies then
            (db, .error "constraint failed")
          else
            ({ db with
              versions := db.versions.insert (token.viewId, version)
                ⟨payload.1, payload.2, completeness, policy, db.corpus.generation,
                  db.corpus.maxStoreId, now, some (now + ttl),
                  if owner.currentVersion = 0 then none else some owner.currentVersion⟩
              sources := db.sources ++ dependencies.map fun d => (token.viewId, version, d)
              views := db.views.updateWhere token.viewId (fun view => Owns token view)
                (View.toReady version now (now + ttl)) }, .ok true)

/-- `publish_ready`. -/
def publishReady (token : QueryViewBuildToken H) (publication : Publication H M) (now : Rat)
    (db : Db H) : Db H × Except String Bool :=
  let dependencies := publication.dependencies.eraseDups
  if ¬ (1 ≤ dependencies.length ∧ dependencies.length ≤ maxDependencies) then
    (db, .error "dependencies must contain between 1 and 40 exact refs")
  else match host.policyKey publication.searchPolicyVersion with
    | .error message => (db, .error message)
    | .ok policy =>
      if ¬ (1 ≤ publication.ttlSeconds ∧ publication.ttlSeconds ≤ 30 * 24 * 60 * 60) then
        (db, .error "ttl_seconds must be between 1 and 2592000")
      else match host.validatedPayloads publication.manifest dependencies publication.completeness with
        | .error message => (db, .error message)
        | .ok payload =>
          publishTransaction host token dependencies payload publication.completeness policy
            publication.ttlSeconds now db

/-- `mark_failed`. -/
def markFailed (token : QueryViewBuildToken H) (error : Text) (now : Rat) (db : Db H) : Db H × Bool :=
  ({ db with views := db.views.updateWhere token.viewId (fun view => Owns token view) (View.toFailed
    ((PyText.strip error).take 1000) now) },
    db.views.matches? token.viewId fun view => Owns token view)

/-- `reclaim_expired_builds`. -/
def reclaimExpiredBuilds (cutoff : Rat) (db : Db H) : Db H :=
  { db with
    views := db.views.updateAll
      (fun _ view => view.status = .building ∧ view.leaseExpiresAt.any fun lease => lease < cutoff)
      (View.toStale "build_lease_expired".toList cutoff) }

/-! ## Housekeeping -/

def bounded (limit : Nat) : Nat := min 1000 (max 1 limit)

/-- The first rows of a table in the order of a column. -/
def firstBy (rows : List (H × View)) (column : View → Rat) (limit : Nat) : List H :=
  ((rows.insertionSort fun a b => column a.2 ≤ column b.2).take (bounded limit)).map Prod.fst

/-- The views that `expire_views` takes. -/
def expiring (cutoff : Rat) (limit : Nat) (db : Db H) : List H :=
  firstBy (db.views.rows.filter fun p => (p.2.expiresAt.any fun e => e ≤ cutoff) ∧ p.2.status ≠ .expired)
    (fun view => view.expiresAt.getD 0) limit

/-- `expire_views`. -/
def expireViews (cutoff : Rat) (limit : Nat) (db : Db H) : Db H :=
  { db with views := db.views.updateAll (fun viewId _ => viewId ∈ expiring cutoff limit db) (View.toExpired cutoff) }

def purging (olderThan : Rat) (limit : Nat) (db : Db H) : List H :=
  firstBy (db.views.rows.filter fun p => p.2.status = .expired ∧ p.2.updatedAt < olderThan)
    (fun view => view.updatedAt) limit

/-- `purge_expired`. -/
def purgeExpired (olderThan : Rat) (limit : Nat) (db : Db H) : Db H :=
  let ids := purging olderThan limit db
  { db with
    sources := db.sources.filter fun s => s.1 ∉ ids
    versions := db.versions.delete fun key => key.1 ∈ ids
    views := db.views.delete fun viewId => viewId ∈ ids }

/-- The generations of the current versions of the views in the statuses that count as active. -/
def activeGenerations (db : Db H) : List Nat :=
  db.views.rows.filterMap fun p =>
    if p.2.status = .ready ∨ p.2.status = .stale ∨ p.2.status = .building then
      (db.versions.get (p.1, p.2.currentVersion)).map Version.corpusGeneration
    else none

def safeFloor (retain : Nat) (db : Db H) : Nat :=
  let current := db.corpus.generation
  min ((activeGenerations db).min?.getD current) (current - max 1 retain)

/-- `prune_corpus_events`. -/
def pruneCorpusEvents (retain : Nat) (db : Db H) : Db H :=
  { db with events := db.events.filter fun e => ¬ e.generation ≤ safeFloor retain db }

end

end QueryView
