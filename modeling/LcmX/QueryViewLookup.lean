import LcmX.QueryView

/-!
# Lookups and runs

A lookup reads and writes the store in separate statements, with other connections between
them, and each phase of it is one statement. A run is a sequence of the calls that write.
-/
namespace QueryView

variable {H M : Type} [DecidableEq H]

inductive LookupStatus where
  | hit | miss | deltaRequired | expired | building | failed | incomplete
  deriving DecidableEq, Repr

/-- `_shape_view`. -/
structure Shaped (H : Type) where
  viewId : H
  row : View
  version : Nat
  versionRow : Version
  dependencies : List (Dependency H)

structure Lookup (H : Type) where
  status : LookupStatus
  reason : Text
  view : Option (Shaped H) := none
  deltaEvents : List Event := []
  deltaTruncated : Bool := false

structure LookupArgs where
  canonical : Text
  now : Rat
  deltaLimit : Nat
  recordHit : Bool

/-- What a lookup has read: its view, the current version of it, and the sources of that version. -/
structure Reading (H : Type) where
  row : View
  versionRow : Version
  dependencies : List (Dependency H)

/-- The next statement of a lookup. -/
inductive Phase (H : Type) where
  | start
  | version (row : View)
  | expire (row : View)
  | sources (row : View) (versionRow : Version)
  | validate (reading : Reading H) (rest : List (Dependency H))
  | corpus (reading : Reading H) (error : Text)
  | mark (reading : Reading H) (reason : Text)
  | reread (reading : Reading H) (reason : Text)
  | delta (reading : Reading H) (row : Option View) (reason : Text)
  | confirm (reading : Reading H)
  | recheck (reading : Reading H) (counted : Bool)
  | lateDelta (reading : Reading H) (row : Option View)
  | done (result : Lookup H)
  | raised

def Phase.result : Phase H → Option (Lookup H)
  | .done result => some result
  | _ => none

omit [DecidableEq H] in
theorem Phase.eq_done {phase : Phase H} {result : Lookup H} (h : phase.result = some result) :
    phase = .done result := by
  cases phase <;> cases h
  rfl

/-- A text or, when it is empty, another. -/
def orElse (text other : Text) : Text := if text = [] then other else text

/-- `_dependencies_for`. -/
def dependenciesFor (db : Db H) (viewId : H) (version : Nat) : List (Dependency H) :=
  ((db.sources.filter fun s => s.1 = viewId ∧ s.2.1 = version).map fun s => s.2.2).insertionSort fun a b =>
    a.sourceStoreId < b.sourceStoreId ∨ a.sourceStoreId = b.sourceStoreId ∧
      (a.spanStart < b.spanStart ∨ a.spanStart = b.spanStart ∧ a.spanEnd ≤ b.spanEnd)

/-- `delta_events`. -/
def deltaEvents (db : Db H) (sinceGeneration limit : Nat) : List Event × Bool :=
  let rows := ((db.events.filter fun e => sinceGeneration < e.generation).insertionSort
    fun a b => a.generation ≤ b.generation).take (bounded limit + 1)
  (rows.take (bounded limit), bounded limit < rows.length)

def View.hit (now : Rat) (view : View) : View :=
  { view with
    hitCount := view.hitCount + 1
    promotionStatus := if 2 ≤ view.hitCount + 1 then .promoted else view.promotionStatus
    updatedAt := now }

/-! ## The write transactions of a lookup -/

def expireTransaction (viewId : H) (version : Nat) (now : Rat) (db : Db H) : Db H :=
  { db with views := db.views.updateWhere viewId (fun view => view.currentVersion = version ∧
    view.status ≠ .expired) (View.toExpired now) }

def staleTransaction (viewId : H) (version : Nat) (reason : Text) (now : Rat) (db : Db H) : Db H :=
  { db with views := db.views.updateWhere viewId (fun view => view.status = .ready ∧
    view.currentVersion = version) (View.toStale reason now) }

def isConfirmed (version generation : Nat) (view : View) : Bool :=
  view.status = .ready ∧ view.currentVersion = version ∧ view.generation = generation

def hitTransaction (viewId : H) (version generation : Nat) (now : Rat) (db : Db H) : Db H :=
  { db with views := db.views.updateWhere viewId (isConfirmed version generation) (View.hit now) }

section

variable (host : Host H M) (args : LookupArgs)

def shape (reading : Reading H) (row : View) : Shaped H :=
  ⟨host.sha256 args.canonical, row, reading.row.currentVersion, reading.versionRow, reading.dependencies⟩

def hitReason : Text := "exact typed intent and fresh positive/negative dependencies".toList

/-- After the corpus state is read. -/
def judge (generation : Nat) (reading : Reading H) (error : Text) : Phase H :=
  let negativeStale := generation ≠ reading.versionRow.corpusGeneration
  if reading.row.status = .stale ∨ reading.row.status = .expired ∨ error ≠ [] ∨ negativeStale then
    let reason := orElse error reading.row.staleReason
    .mark reading (if negativeStale ∧ reason = [] then
      "corpus advanced beyond the negative-space watermark".toList else reason)
  else if reading.versionRow.completeness ≠ .complete then
    .done ⟨.incomplete, "view has not closed every required evidence slot".toList,
      some (shape host args reading reading.row), [], false⟩
  else if args.recordHit then .confirm reading
  else .done ⟨.hit, hitReason, some (shape host args reading reading.row), [], false⟩

/-- The statement of a phase, and the phase after it. -/
def lookupStep (db : Db H) : Phase H → Db H × Phase H
  | .start =>
    match db.views.get (host.sha256 args.canonical) with
    | none => (db, .done { status := .miss, reason := "typed intent has no materialized view".toList })
    | some row =>
      if row.identityJson ≠ args.canonical then
        (db, .done { status := .miss, reason := "typed intent identity mismatch".toList })
      else if row.status = .building then
        (db, .done { status := .building, reason := "view refresh is in progress".toList })
      else if row.status = .failed then
        (db, .done { status := .failed, reason := orElse row.staleReason "build failed".toList })
      else if row.currentVersion = 0 then
        (db, .done { status := .miss, reason := "view has no published evidence version".toList })
      else (db, .version row)
  | .version row =>
    match db.versions.get (host.sha256 args.canonical, row.currentVersion) with
    | none => (db, .done { status := .failed, reason := "current view version is missing".toList })
    | some versionRow => (db, if versionRow.expiresAt.any fun e => e ≤ args.now then .expire row
          else .sources row versionRow)
  | .expire row =>
    (expireTransaction (host.sha256 args.canonical) row.currentVersion args.now db,
      .done { status := .expired, reason := "view TTL expired".toList })
  | .sources row versionRow =>
    let dependencies := dependenciesFor db (host.sha256 args.canonical) row.currentVersion
    (db, .validate ⟨row, versionRow, dependencies⟩ dependencies)
  | .validate reading [] => (db, judge host args db.corpus.generation reading [])
  | .validate reading (dependency :: rest) =>
    match validateDependencyCurrent host db dependency with
    | .ok () => (db, .validate reading rest)
    | .error message => (db, .corpus reading message.toList)
  | .corpus reading error => (db, judge host args db.corpus.generation reading error)
  | .mark reading reason =>
    (staleTransaction (host.sha256 args.canonical) reading.row.currentVersion reason args.now db,
      .reread reading reason)
  | .reread reading reason => (db, .delta reading (db.views.get (host.sha256 args.canonical)) reason)
  | .delta _ none _ => (db, .raised)
  | .delta reading (some row) reason =>
    let events := deltaEvents db reading.versionRow.corpusGeneration args.deltaLimit
    (db, .done ⟨.deltaRequired, orElse reason "view is stale".toList,
      some (shape host args reading row), events.1, events.2⟩)
  | .confirm reading =>
    (hitTransaction (host.sha256 args.canonical) reading.row.currentVersion reading.row.generation args.now db,
      .recheck reading (db.views.matches? (host.sha256 args.canonical)
        (isConfirmed reading.row.currentVersion reading.row.generation)))
  | .recheck reading counted =>
    match db.views.get (host.sha256 args.canonical) with
    | none => (db, .lateDelta reading none)
    | some row =>
      if counted ∧ isConfirmed reading.row.currentVersion reading.row.generation row then
        (db, .done ⟨.hit, hitReason, some (shape host args reading row), [], false⟩)
      else (db, .lateDelta reading (some row))
  | .lateDelta reading row =>
    let events := deltaEvents db reading.versionRow.corpusGeneration args.deltaLimit
    let current := row.filter fun r => r.currentVersion = reading.row.currentVersion
    (db, .done ⟨.deltaRequired,
      orElse ((row.map View.staleReason).getD []) "view changed during hit confirmation".toList,
      current.map (shape host args reading), events.1, events.2⟩)
  | .done result => (db, .done result)
  | .raised => (db, .raised)

end

/-! ## Runs -/

/-- A call that writes, or a write transaction of a lookup with what it read before. The last one is a change of the
assertions by their own store. -/
inductive Op (H M : Type) where
  | insert (storeId : Nat) (message : Message) (now : Rat)
  | update (storeId : Nat) (message : Message) (now : Rat)
  | delete (storeId : Nat) (now : Rat)
  | claim (canonical : Text) (snapshot : CorpusSnapshot) (nonce : Text) (now : Rat)
  | publish (token : QueryViewBuildToken H) (publication : Publication H M) (now : Rat)
  | fail (token : QueryViewBuildToken H) (error : Text) (now : Rat)
  | reclaim (cutoff : Rat)
  | expire (cutoff : Rat) (limit : Nat)
  | purge (olderThan : Rat) (limit : Nat)
  | prune (retain : Nat)
  | lookupExpire (viewId : H) (version : Nat) (now : Rat)
  | lookupStale (viewId : H) (version : Nat) (reason : Text) (now : Rat)
  | lookupHit (viewId : H) (version generation : Nat) (now : Rat)
  | assertions (valid : List Text)

section

variable (host : Host H M)

def Op.apply (db : Db H) : Op H M → Db H
  | .insert storeId message now => insertMessage storeId message now db
  | .update storeId message now => updateMessage storeId message now db
  | .delete storeId now => deleteMessage storeId now db
  | .claim canonical snapshot nonce now => (claimBuild host canonical snapshot nonce now db).1
  | .publish token publication now => (publishReady host token publication now db).1
  | .fail token error now => (markFailed token error now db).1
  | .reclaim cutoff => reclaimExpiredBuilds cutoff db
  | .expire cutoff limit => expireViews cutoff limit db
  | .purge olderThan limit => purgeExpired olderThan limit db
  | .prune retain => pruneCorpusEvents retain db
  | .lookupExpire viewId version now => expireTransaction viewId version now db
  | .lookupStale viewId version reason now => staleTransaction viewId version reason now db
  | .lookupHit viewId version generation now => hitTransaction viewId version generation now db
  | .assertions valid => { db with assertions := valid }

/-- The token of a terminal call that succeeds. -/
def Op.won (db : Db H) : Op H M → Option (QueryViewBuildToken H)
  | .publish token publication now =>
    match (publishReady host token publication now db).2 with
    | .ok true => some token
    | _ => none
  | .fail token error now => if (markFailed token error now db).2 then some token else none
  | _ => none

def Op.nonce : Op H M → Option Text
  | .claim _ _ nonce _ => some nonce
  | _ => none

/-- Every event that the log ever held, the nonces of the claims, and the tokens whose terminal call succeeded. -/
structure History (H : Type) where
  db : Db H
  log : List Event
  nonces : List Text
  wins : List (QueryViewBuildToken H)

def History.step (h : History H) (op : Op H M) : History H where
  db := op.apply host h.db
  log := h.log ++ (op.apply host h.db).events.filter fun e => h.db.corpus.generation < e.generation
  nonces := op.nonce.toList ++ h.nonces
  wins := (op.won host h.db).toList ++ h.wins

/-- Runs from a new schema whose steps all meet a condition; the nonces of the claims are new. -/
inductive Reaches (ok : Db H → Op H M → Prop) : History H → Prop
  | start (messages : KeyedTable Nat Message) (assertions : List Text) :
      Reaches ok ⟨ensureSchema messages assertions, [], [], []⟩
  | step {h : History H} (op : Op H M) (run : Reaches ok h)
      (fresh : ∀ nonce, op.nonce = some nonce → nonce ≠ [] ∧ nonce ∉ h.nonces)
      (meets : ok h.db op) : Reaches ok (h.step host op)

end

/-- A lookup on its own is a sequence of its statements. -/
theorem lookupStep_db (host : Host H M) (args : LookupArgs) (db : Db H) (phase : Phase H) :
    (lookupStep host args db phase).1 = db ∨ ∃ op : Op H M, (lookupStep host args db phase).1 = op.apply host db := by
  cases phase with
  | expire row => exact .inr ⟨.lookupExpire _ _ _, rfl⟩
  | mark reading reason => exact .inr ⟨.lookupStale _ _ _ _, rfl⟩
  | confirm reading => exact .inr ⟨.lookupHit _ _ _ _, rfl⟩
  | start =>
    left
    rw [lookupStep]
    split
    · rfl
    · split_ifs <;> rfl
  | version row =>
    left
    rw [lookupStep]
    split <;> rfl
  | validate reading rest =>
    left
    cases rest with
    | nil => rfl
    | cons dependency rest =>
      rw [lookupStep]
      split <;> rfl
  | delta reading row reason => cases row <;> exact .inl rfl
  | recheck reading counted =>
    left
    rw [lookupStep]
    split
    · rfl
    · split <;> rfl
  | sources row versionRow => exact .inl rfl
  | corpus reading error => exact .inl rfl
  | reread reading reason => exact .inl rfl
  | lateDelta reading row => exact .inl rfl
  | done result => exact .inl rfl
  | raised => exact .inl rfl

/-! ## A store with one message -/

def plainHost : Host Text Unit where
  sha256 := id
  policyKey := .ok
  validatedPayloads _ _ _ := .ok ([], [])

def teaMessage : Message := ⟨"s".toList, some "c".toList, some [], "user".toList, some "tea".toList, 1⟩

def teaTable : KeyedTable Nat Message := ⟨[(1, teaMessage)], by decide⟩

def teaDependency : Dependency Text :=
  ⟨1, "tea".toList, "s".toList, "c".toList, [], "user".toList, 1, 0, 3, "tea".toList, []⟩

def teaPublication : Publication Text Unit := ⟨[teaDependency], (), .complete, "v1".toList, 1000⟩

/-- Claim number `n` of the view, at a generation and a version of it and at a generation of the corpus. -/
def teaToken (nonce : Char) (generation version corpus : Nat) : QueryViewBuildToken Text :=
  ⟨"q".toList, generation, [nonce], version, corpus, 1⟩

def teaStart : History Text := ⟨ensureSchema teaTable [], [], [], []⟩

/-- The view is published at the generation 0 of the corpus. -/
def teaOps : List (Op Text Unit) :=
  [.claim "q".toList ⟨0, 1, 1⟩ ['a'] 0, .publish (teaToken 'a' 0 0 0) teaPublication 0]

def teaLookup : LookupArgs := ⟨"q".toList, 400, 256, true⟩

def runOps (host : Host H M) (h : History H) (ops : List (Op H M)) : History H :=
  ops.foldl (fun h op => h.step host op) h

/-- The calls of a list have new nonces and meet the condition, each in the state that those before it leave. -/
def Along (host : Host H M) (ok : Db H → Op H M → Prop) : History H → List (Op H M) → Prop
  | _, [] => True
  | h, op :: ops => (∀ nonce ∈ op.nonce, nonce ≠ [] ∧ nonce ∉ h.nonces) ∧ ok h.db op ∧
        Along host ok (h.step host op) ops

theorem reaches_runOps {host : Host H M} {ok : Db H → Op H M → Prop} :
    ∀ (ops : List (Op H M)) {h : History H}, Reaches host ok h →
    Along host ok h ops → Reaches host ok (runOps host h ops)
  | [], _, run, _ => run
  | op :: ops, _, run, ⟨hfresh, hmeets, hrest⟩ =>
    reaches_runOps ops (.step op run (fun nonce h => hfresh nonce h) hmeets) hrest

end QueryView
