import LcmX.AssertionPublication

/-!
# Published relations

A relation is shown while its own receipt and the receipts of its endpoints are active. The
endpoints are looked at where a relation is inserted, and not where its receipt is found
again or taken back into use.
-/
namespace Assertion

/-! ## The query -/

/-- `_validate_source_provenance`. -/
def validateSourceProvenance (host : Host) (content expectedSha256 : Text) (spanStart spanEnd : Int)
    (quote : Text) (label : String) :
    Except Error Unit :=
  if host.sha256 content ≠ expectedSha256 then .error (.stale s!"active {label} hash changed")
  else if PyText.slice content spanStart.toNat spanEnd.toNat ≠ quote then
    .error (.stale s!"active {label} span changed")
  else .ok ()

/-- The content of a message that is there, under an active receipt. -/
def activeContent (db : Db) (key : Key) : Option Text :=
  if isActive db key then (db.messages.get key.storeId).map fun m => m.content.getD [] else none

def joinEndpoint (db : Db) (assertionId : Text) : Option (StoredAssertion × Text) := do
  let a ← db.assertions.get assertionId
  let content ← activeContent db a.payload.key
  pure (a, content)

structure JoinedRelation where
  relationId : Text
  relation : StoredRelation
  content : Text
  source : StoredAssertion × Text
  target : StoredAssertion × Text

def joinRelation (db : Db) (version : Text) (row : Text × StoredRelation) : Option JoinedRelation := do
  let content ← (activeContent db row.2.payload.key).filter fun _ => row.2.payload.key.version = version
  let source ← joinEndpoint db row.2.payload.fromAssertionId
  let target ← joinEndpoint db row.2.payload.toAssertionId
  pure ⟨row.1, row.2, content, source, target⟩

def validateEndpoint (host : Host) (name : String) (found : StoredAssertion × Text) : Except Error Unit :=
  validateSourceProvenance host found.2 found.1.payload.key.contentSha256
    found.1.payload.sourceSpanStart found.1.payload.sourceSpanEnd
    found.1.payload.sourceQuote s!"relation {name} endpoint {found.1.payload.key.storeId}"

def JoinedRelation.validate (host : Host) (row : JoinedRelation) : Except Error (Text × StoredRelation) := do
  validateSourceProvenance host row.content row.relation.payload.key.contentSha256 row.relation.payload.sourceSpanStart
    row.relation.payload.sourceSpanEnd row.relation.payload.sourceQuote
      s!"relation source {row.relation.payload.key.storeId}"
  validateEndpoint host "from" row.source
  validateEndpoint host "to" row.target
  pure (row.relationId, row.relation)

/-- `query_relations` of a version, with the other filters left out, as they are by default, and without a limit. -/
def queryRelations (host : Host) (extractionVersion : Text) (db : Db) :
    Except Error (List (Text × StoredRelation)) := do
  let version ← validatedVersion extractionVersion
  let rows := (db.relations.rows.filterMap (joinRelation db version)).insertionSort fun a b =>
    a.relation.createdAt < b.relation.createdAt ∨
      (a.relation.createdAt = b.relation.createdAt ∧ a.relationId ≤ b.relationId)
  rows.mapM (JoinedRelation.validate host)

/-! ## The calls -/

structure Publication where
  snapshot : SourceSnapshot
  candidates : List AssertionCandidate
  relations : List AssertionRelationCandidate
  extractionVersion : Text
  now : Rat
  clock : Text → Rat

namespace Publication

variable (host : Host) (pub : Publication)

def publish (db : Db) : Db × Except Error PublishResult :=
  publishSource host pub.snapshot pub.candidates pub.relations pub.extractionVersion pub.now pub.clock db

def prepared : Except Error Prepared := prepare host pub.snapshot pub.candidates pub.relations pub.extractionVersion

def key : Key := pub.snapshot.key (PyText.strip pub.extractionVersion)

/-- The endpoints that the caller names. -/
def endpoints : List Text :=
  pub.relations.flatMap fun r =>
    [PyText.lower (PyText.strip r.fromAssertionId), PyText.lower (PyText.strip r.toAssertionId)]

/-- Each relation of the publication has both endpoints under active receipts. -/
def LiveEndpoints (after : Db) : Prop :=
  ∀ p, pub.prepared host = .ok p → ∀ row ∈ p.relations,
    activeEndpoint after row.payload.fromAssertionId = true ∧ activeEndpoint after row.payload.toAssertionId = true

/-- The query of the publication's version returns each relation of the result. -/
def Returned (after : Db) (result : PublishResult) : Prop :=
  ∃ rows, queryRelations host pub.extractionVersion after = .ok rows ∧ ∀ id ∈ result.relationIds, id ∈ rows.map Prod.fst

/-- Where the source has a receipt already, the endpoints are its own or under active receipts. -/
def Ready (before : Db) : Prop :=
  (before.sources.get pub.key).isSome → ∀ id ∈ pub.endpoints,
    (before.assertions.get id).any (fun a => a.payload.key = pub.key ∨ isActive before a.payload.key) = true

end Publication

/-- Calls of `publish_source` and `invalidate_source` over a store of messages, with the
publications, the last one first, and the store that each of them found. -/
inductive Calls (host : Host) (messages : KeyedTable Int Message) : List (Publication × Db) → Db → Prop
  | start : Calls host messages [] (ensureTables messages)
  | publish {calls : List (Publication × Db)} {db : Db} (pub : Publication) (run : Calls host messages calls db) :
      Calls host messages ((pub, db) :: calls) (pub.publish host db).1
  | invalidate {calls : List (Publication × Db)} {db : Db} (storeId : Int) (reason : Text)
      (invalidatedAt : Option Number) (now : Rat)
      (run : Calls host messages calls db) :
        Calls host messages calls (invalidateSource storeId reason invalidatedAt now db).1

/-- Two outputs of one source and version that have one digest have the same relations. -/
def DigestsApart (host : Host) (calls : List (Publication × Db)) : Prop :=
  ∀ call ∈ calls, ∀ call' ∈ calls, call.1.key = call'.1.key → ∀ p p', call.1.prepared host = .ok p →
    call'.1.prepared host = .ok p' →
    p.candidateDigest = p'.candidateDigest → p.relations = p'.relations

/-! ## What a publication prepares -/

theorem require_ok {ok : Bool} {message : String} {u : Unit} (h : require ok message = .ok u) : ok = true := by
  rw [require] at h
  split at h
  · assumption
  · cases h

theorem validatedVersion_ok {version normalized : Text}
    (h : validatedVersion version = .ok normalized) : normalized = PyText.strip version := by
  rw [validatedVersion] at h
  obtain ⟨-, -, h⟩ := Fallible.bind_ok.mp h
  obtain ⟨-, -, h⟩ := Fallible.bind_ok.mp h
  exact (Except.ok.inj h).symm

theorem relationPayload_endpoints (snapshot : SourceSnapshot)
    (candidate : AssertionRelationCandidate) (version : Text) :
    ∀ payload, relationPayload snapshot candidate version = .ok payload →
      payload.fromAssertionId = PyText.lower (PyText.strip candidate.fromAssertionId) ∧
        payload.toAssertionId = PyText.lower (PyText.strip candidate.toAssertionId) := by
  rw [relationPayload]
  repeat' (refine ok_of_bind fun _ => ?_)
  exact ok_of_pure ⟨rfl, rfl⟩

theorem prepareRelation_endpoints {host : Host} {snapshot : SourceSnapshot} {version : Text}
    {candidate : AssertionRelationCandidate}
    {row : RelationRow} (h : prepareRelation host snapshot version candidate = .ok row) :
    row.payload.fromAssertionId = PyText.lower (PyText.strip candidate.fromAssertionId) ∧
      row.payload.toAssertionId = PyText.lower (PyText.strip candidate.toAssertionId) := by
  rw [prepareRelation] at h
  obtain ⟨payload, hpayload, h⟩ := Fallible.bind_ok.mp h
  obtain ⟨encoded, -, h⟩ := Fallible.bind_ok.mp h
  obtain rfl := Except.ok.inj h
  exact relationPayload_endpoints _ _ _ payload hpayload

theorem prepared_ok {host : Host} {pub : Publication} {p : Prepared} (h : pub.prepared host = .ok p) :
    validatedVersion pub.extractionVersion = .ok p.version ∧ ∃ rows,
      pub.relations.mapM (prepareRelation host pub.snapshot p.version) = .ok rows ∧
      ∀ row, row ∈ p.relations ↔ row ∈ rows := by
  rw [Publication.prepared, prepare] at h
  obtain ⟨version, hversion, h⟩ := Fallible.bind_ok.mp h
  obtain ⟨-, -, h⟩ := Fallible.bind_ok.mp h
  obtain ⟨-, -, h⟩ := Fallible.bind_ok.mp h
  obtain ⟨assertions, -, h⟩ := Fallible.bind_ok.mp h
  obtain ⟨rows, hrows, h⟩ := Fallible.bind_ok.mp h
  obtain ⟨-, -, h⟩ := Fallible.bind_ok.mp h
  obtain ⟨-, -, h⟩ := Fallible.bind_ok.mp h
  obtain ⟨encoded, -, h⟩ := Fallible.bind_ok.mp h
  obtain rfl := Except.ok.inj h
  exact ⟨hversion, rows, hrows, fun row => List.mem_insertionSort _⟩

/-- The endpoints of the rows are those that the caller names. -/
theorem prepared_endpoints {host : Host} {pub : Publication} {p : Prepared}
    (h : pub.prepared host = .ok p) (id : Text) :
    id ∈ pub.endpoints ↔ ∃ row ∈ p.relations, id = row.payload.fromAssertionId ∨ id = row.payload.toAssertionId := by
  obtain ⟨-, rows, hrows, hmem⟩ := prepared_ok h
  have hall := Fallible.mapM_ok hrows
  simp only [hmem, Publication.endpoints]
  clear hmem hrows h
  generalize pub.relations = candidates at hall ⊢
  induction hall with
  | nil => simp
  | cons hrow _ ih =>
    obtain ⟨hfrom, hto⟩ := prepareRelation_endpoints hrow
    simp [ih, hfrom, hto, or_assoc]

/-! ## The inserts -/

section

variable {host : Host} {clock : Text → Rat} {db db' : Db}

theorem insertRelation_cases {row : RelationRow} (h : insertRelation clock db row = .ok db') :
    (activeEndpoint db row.payload.fromAssertionId = true ∧ activeEndpoint db row.payload.toAssertionId = true) ∧
      spanGuard db row.payload.key row.payload.sourceSpanStart row.payload.sourceSpanEnd
      row.payload.sourceQuote = true ∧
      db.relations.get row.relationId = none ∧
      db' = { db with relations := db.relations.insert row.relationId ⟨row.payload, clock row.relationId⟩ } := by
  rw [insertRelation] at h
  obtain ⟨_, hfrom, h⟩ := Fallible.bind_ok.mp h
  obtain ⟨_, hto, h⟩ := Fallible.bind_ok.mp h
  obtain ⟨_, hspan, h⟩ := Fallible.bind_ok.mp h
  obtain ⟨-, -, h⟩ := Fallible.bind_ok.mp h
  obtain ⟨_, hunique, h⟩ := Fallible.bind_ok.mp h
  exact ⟨⟨require_ok hfrom, require_ok hto⟩, enforce_ok hspan,
    Option.isNone_iff_eq_none.mp (enforce_ok hunique), (Except.ok.inj h).symm⟩

theorem insertAssertion_cases {row : AssertionRow} (h : insertAssertion clock db row = .ok db') :
    spanGuard db row.payload.key row.payload.sourceSpanStart row.payload.sourceSpanEnd row.payload.sourceQuote = true ∧
      db.assertions.get row.assertionId = none ∧
      db' = { db with assertions := db.assertions.insert row.assertionId ⟨row.payload, clock row.assertionId⟩ } := by
  rw [insertAssertion] at h
  obtain ⟨_, hspan, h⟩ := Fallible.bind_ok.mp h
  obtain ⟨-, -, h⟩ := Fallible.bind_ok.mp h
  obtain ⟨_, hunique, h⟩ := Fallible.bind_ok.mp h
  exact ⟨enforce_ok hspan, Option.isNone_iff_eq_none.mp (enforce_ok hunique), (Except.ok.inj h).symm⟩

theorem insertReceipt_cases {key : Key} {receipt : Receipt} (h : insertReceipt key receipt db = .ok db') :
    db' = { db with sources := db.sources.insert key receipt } := by
  rw [insertReceipt] at h
  obtain ⟨-, -, h⟩ := Fallible.bind_ok.mp h
  obtain ⟨-, -, h⟩ := Fallible.bind_ok.mp h
  obtain ⟨-, -, h⟩ := Fallible.bind_ok.mp h
  exact (Except.ok.inj h).symm

theorem get_insert_kept {κ ρ : Type} [DecidableEq κ] {t : KeyedTable κ ρ} {k k' : κ} {r r' : ρ}
    (h : t.get k' = some r') :
    (t.insert k r).get k' = some r' := by
  rw [KeyedTable.get_insert]
  split
  · rename_i hk
    rw [← hk.1, h] at hk
    cases hk.2
  · exact h

theorem get_insert_cases {κ ρ : Type} [DecidableEq κ] {t : KeyedTable κ ρ} {k k' : κ} {r r' : ρ}
    (h : (t.insert k r).get k' = some r') :
    t.get k' = some r' ∨ r' = r := by
  rw [KeyedTable.get_insert] at h
  split at h
  · exact .inr (Option.some.inj h).symm
  · exact .inl h

/-- The text that a row quotes is the one of its message. -/
def Quotes (db : Db) (key : Key) (start stop : Int) (quote : Text) : Prop :=
  ∀ m, db.messages.get key.storeId = some m → PyText.slice (m.content.getD []) start.toNat stop.toNat = quote

theorem slice_append_of_le {a : Text} (b : Text) (start : Nat) {stop : Nat} (h : stop ≤ a.length) :
    PyText.slice (a ++ b) start stop = PyText.slice a start stop := by
  by_cases hstart : start ≤ a.length
  · rw [PyText.slice, PyText.slice, List.drop_append_of_le_length hstart, List.take_append_of_le_length]
    rw [List.length_drop]
    omega
  · have hnone : stop - start = 0 := by omega
    rw [PyText.slice, PyText.slice, hnone, List.take_zero, List.take_zero]

theorem quotes_of_spanGuard {key : Key} {start stop : Int} {quote : Text}
    (h : spanGuard db key start stop quote = true) :
    Quotes db key start stop quote := by
  intro m hm
  have hspan : stop ≤ (sqlText (m.content.getD [])).length ∧
      PyText.slice (sqlText (m.content.getD [])) start.toNat stop.toNat = quote := by
    rw [spanGuard, hm] at h
    simpa using (of_decide_eq_true h).2
  have hcut : sqlText (m.content.getD []) ++ (m.content.getD []).dropWhile
      (fun c => c ≠ Char.ofNat 0) = m.content.getD [] :=
    List.takeWhile_append_dropWhile
  have hstop : stop.toNat ≤ (sqlText (m.content.getD [])).length := by omega
  rw [← hspan.2, ← slice_append_of_le ((m.content.getD []).dropWhile fun c => c ≠ Char.ofNat 0) start.toNat hstop, hcut]

structure Grounded (db : Db) : Prop where
  assertions : ∀ id a, db.assertions.get id = some a →
    Quotes db a.payload.key a.payload.sourceSpanStart a.payload.sourceSpanEnd a.payload.sourceQuote
  relations : ∀ id r, db.relations.get id = some r →
    Quotes db r.payload.key r.payload.sourceSpanStart r.payload.sourceSpanEnd r.payload.sourceQuote

theorem insertAssertion_grounded {row : AssertionRow} (hg : Grounded db)
    (h : insertAssertion clock db row = .ok db') : Grounded db' := by
  obtain ⟨hspan, -, rfl⟩ := insertAssertion_cases h
  refine ⟨fun id a ha => ?_, hg.relations⟩
  rcases get_insert_cases ha with hold | rfl
  · exact hg.assertions id a hold
  · exact quotes_of_spanGuard hspan

theorem insertRelation_grounded {row : RelationRow} (hg : Grounded db)
    (h : insertRelation clock db row = .ok db') : Grounded db' := by
  obtain ⟨-, hspan, -, rfl⟩ := insertRelation_cases h
  refine ⟨hg.assertions, fun id r hr => ?_⟩
  rcases get_insert_cases hr with hold | rfl
  · exact hg.relations id r hold
  · exact quotes_of_spanGuard hspan

/-- What the loop over the relations of a publication leaves, and what it has looked at. -/
structure RelationsInserted (rows : List RelationRow) (db db' : Db) : Prop where
  sources : db'.sources = db.sources
  assertions : db'.assertions = db.assertions
  endpoints : ∀ row ∈ rows, activeEndpoint db row.payload.fromAssertionId = true ∧
    activeEndpoint db row.payload.toAssertionId = true
  stored : ∀ row ∈ rows, ∃ createdAt, db'.relations.get row.relationId = some ⟨row.payload, createdAt⟩
  kept : ∀ id r, db.relations.get id = some r → db'.relations.get id = some r

theorem relations_inserted {rows : List RelationRow} : ∀ {db : Db},
    rows.foldlM (insertRelation clock) db = .ok db' → RelationsInserted rows db db' := by
  induction rows with
  | nil =>
    intro db h
    obtain rfl := Except.ok.inj h
    exact ⟨rfl, rfl, fun _ h => (nomatch h), fun _ h => (nomatch h), fun _ _ h => h⟩
  | cons row rows ih =>
    intro db h
    rw [List.foldlM_cons] at h
    obtain ⟨mid, hmid, hrest⟩ := Fallible.bind_ok.mp h
    obtain ⟨hends, -, hnone, rfl⟩ := insertRelation_cases hmid
    have hlater := ih hrest
    refine ⟨hlater.sources, hlater.assertions, fun other hother => ?_, fun other hother => ?_,
      fun id r hr => hlater.kept id r (get_insert_kept hr)⟩
    · obtain rfl | hother := List.mem_cons.mp hother
      · exact hends
      · exact hlater.endpoints other hother
    · obtain rfl | hother := List.mem_cons.mp hother
      · refine ⟨clock other.relationId, hlater.kept _ _ ?_⟩
        rw [KeyedTable.get_insert, if_pos ⟨rfl, hnone⟩]
      · exact hlater.stored other hother

/-- The parts of a new publication. -/
theorem insertOutput_cases {snapshot : SourceSnapshot} {p : Prepared} {now : Rat}
    (h : insertOutput snapshot p now clock db = .ok db') :
    ∃ mid, p.assertions.foldlM (insertAssertion clock)
    { db with sources := db.sources.insert (snapshot.key p.version) (p.receipt snapshot now) } =
      .ok mid ∧ p.relations.foldlM (insertRelation clock) mid = .ok db' := by
  rw [insertOutput] at h
  obtain ⟨first, hfirst, h⟩ := Fallible.bind_ok.mp h
  obtain ⟨mid, hmid, hrest⟩ := Fallible.bind_ok.mp h
  rw [insertReceipt_cases hfirst] at hmid
  exact ⟨mid, hmid, hrest⟩

theorem insertOutput_grounded {snapshot : SourceSnapshot} {p : Prepared} {now : Rat} (hg : Grounded db)
    (h : insertOutput snapshot p now clock db = .ok db') : Grounded db' := by
  obtain ⟨mid, hmid, hrest⟩ := insertOutput_cases h
  have hstart : Grounded { db with sources := db.sources.insert (snapshot.key p.version) (p.receipt snapshot now) } :=
    ⟨hg.assertions, hg.relations⟩
  have hassertions : Grounded mid :=
    Fallible.foldlM_invariant (fun _ _ _ _ hb hstep => insertAssertion_grounded hb hstep) hstart hmid
  exact Fallible.foldlM_invariant (fun _ _ _ _ hb hstep => insertRelation_grounded hb hstep) hassertions hrest

end

/-! ## Over the calls -/

/-- Each receipt has the digest of a publication of the run, and the relations of that one are stored. -/
def Recorded (host : Host) (calls : List (Publication × Db)) (db : Db) : Prop :=
  ∀ key receipt, db.sources.get key = some receipt → ∃ call ∈ calls, call.1.key = key ∧ ∃ p,
    call.1.prepared host = .ok p ∧
    receipt.candidateDigest = p.candidateDigest ∧ ∀ row ∈ p.relations, ∃ createdAt,
      db.relations.get row.relationId = some ⟨row.payload, createdAt⟩

structure Sound (host : Host) (calls : List (Publication × Db)) (db : Db) : Prop where
  coherent : Coherent host db
  grounded : Grounded db
  recorded : Recorded host calls db

section

variable {host : Host} {messages : KeyedTable Int Message} {calls : List (Publication × Db)}
  {db db' : Db} {pub : Publication} {p : Prepared}
  {alreadyCurrent : Bool}

theorem prepared_key (hp : pub.prepared host = .ok p) : pub.snapshot.key p.version = pub.key := by
  rw [Publication.key, validatedVersion_ok (prepared_ok hp).1]

theorem Recorded.weaken {more : List (Publication × Db)} (h : Recorded host calls db)
    (hmore : calls ⊆ more) : Recorded host more db := by
  intro key receipt hget
  obtain ⟨call, hcall, hrest⟩ := h key receipt hget
  exact ⟨call, hmore hcall, hrest⟩

/-- The receipts keep their digests and the relations stay. -/
theorem Recorded.mono (h : Recorded host calls db)
    (hsources : ∀ key receipt, db'.sources.get key = some receipt →
      ∃ old, db.sources.get key = some old ∧ receipt.candidateDigest = old.candidateDigest)
    (hrelations : ∀ id r, db.relations.get id = some r → db'.relations.get id = some r) : Recorded host calls db' := by
  intro key receipt hget
  obtain ⟨old, hold, hdigest⟩ := hsources key receipt hget
  obtain ⟨call, hcall, hkey, p, hp, hsame, hstored⟩ := h key old hold
  refine ⟨call, hcall, hkey, p, hp, hdigest.trans hsame, fun row hrow => ?_⟩
  obtain ⟨createdAt, hrow⟩ := hstored row hrow
  exact ⟨createdAt, hrelations _ _ hrow⟩

theorem Recorded.invalidate (h : Recorded host calls db) (storeId : Int) (timestamp : Rat) (reason : Text) :
    Recorded host calls (invalidateWhere storeId timestamp reason db) := by
  refine h.mono (fun key receipt hget => ?_) fun _ _ hr => hr
  rw [get_invalidateWhere, Option.map_eq_some_iff] at hget
  obtain ⟨old, hold, rfl⟩ := hget
  refine ⟨old, hold, ?_⟩
  split <;> rfl

theorem insertAssertions_relations {clock : Text → Rat} {rows : List AssertionRow}
    (h : rows.foldlM (insertAssertion clock) db = .ok db') :
    db'.relations = db.relations := by
  refine Fallible.foldlM_invariant (P := fun mid => mid.relations = db.relations)
    (fun row _ mid mid' hmid hstep => ?_) rfl h
  obtain ⟨-, -, rfl⟩ := insertAssertion_cases hstep
  exact hmid

/-- After a publication every receipt still has its recorded output. -/
theorem Recorded.published (h : Recorded host calls db) (hp : pub.prepared host = .ok p)
    (hpublished : Published host pub.snapshot p pub.now pub.clock db db' alreadyCurrent) :
      Recorded host ((pub, db) :: calls) db' := by
  have hweak : Recorded host ((pub, db) :: calls) db := h.weaken (List.subset_cons_self _ _)
  cases hpublished with
  | same receipt hget hactive hrecords hdb =>
    rw [hdb]
    exact hweak
  | reactivated receipt hcurrent hget hrecords hdb =>
    subst hdb
    refine hweak.mono (fun key other hother => ?_) fun _ _ hr => hr
    rw [KeyedTable.get_modify] at hother
    split at hother
    · rename_i hkey
      obtain ⟨old, hold, rfl⟩ := Option.map_eq_some_iff.mp hother
      exact ⟨old, hkey ▸ hold, rfl⟩
    · exact ⟨other, hother, rfl⟩
  | inserted hcurrent hget hinsert =>
    have hsources := (insertOutput_inserted (prepare_keys hp).1 hinsert).sources
    obtain ⟨mid, hmid, hrest⟩ := insertOutput_cases hinsert
    have hins := relations_inserted hrest
    have hkept : ∀ id r, db.relations.get id = some r → db'.relations.get id = some r := fun id r hr =>
      hins.kept id r (by rw [insertAssertions_relations hmid]; exact hr)
    intro key receipt hreceipt
    rw [hsources] at hreceipt
    split at hreceipt
    · -- the receipt of this publication
      rename_i hkey
      obtain rfl := Option.some.inj hreceipt
      exact ⟨(pub, db), List.mem_cons_self, (prepared_key hp).symm.trans hkey.symm, p, hp, rfl, hins.stored⟩
    · obtain ⟨call, hcall, hcallKey, q, hq, hdigest, hstored⟩ := hweak key receipt hreceipt
      refine ⟨call, hcall, hcallKey, q, hq, hdigest, fun row hrow => ?_⟩
      obtain ⟨createdAt, hrow⟩ := hstored row hrow
      exact ⟨createdAt, hkept _ _ hrow⟩

theorem Grounded.published (hg : Grounded db)
    (h : Published host pub.snapshot p pub.now pub.clock db db' alreadyCurrent) : Grounded db' := by
  cases h with
  | same receipt hget hactive hrecords hdb =>
    rw [hdb]
    exact hg
  | reactivated receipt hcurrent hget hrecords hdb =>
    subst hdb
    exact ⟨hg.assertions, hg.relations⟩
  | inserted hcurrent hget hinsert => exact insertOutput_grounded hg hinsert

theorem Sound.publish (hs : Sound host calls db) (pub : Publication) :
    Sound host ((pub, db) :: calls) (pub.publish host db).1 := by
  have hcoherent : Coherent host (pub.publish host db).1 :=
    hs.coherent.step (.publish pub.snapshot pub.candidates pub.relations pub.extractionVersion pub.now pub.clock)
  rcases publish_cases host pub.snapshot pub.candidates pub.relations pub.extractionVersion pub.now pub.clock db with
    hsame | ⟨p, hp, -, alreadyCurrent, hpublished⟩
  · have hdb : (pub.publish host db).1 = db := hsame
    rw [hdb]
    exact ⟨hs.coherent, hs.grounded, hs.recorded.weaken (List.subset_cons_self _ _)⟩
  · exact ⟨hcoherent, hs.grounded.published hpublished, hs.recorded.published hp hpublished⟩

theorem Sound.invalidate (hs : Sound host calls db) (storeId : Int) (reason : Text)
    (invalidatedAt : Option Number) (now : Rat) :
    Sound host calls (invalidateSource storeId reason invalidatedAt now db).1 := by
  rcases invalidateSource_cases storeId reason invalidatedAt now db with hsame | ⟨timestamp, reason', hsame⟩
  · rw [hsame]
    exact hs
  · rw [hsame]
    exact ⟨hs.coherent.invalidate storeId timestamp reason', ⟨hs.grounded.assertions, hs.grounded.relations⟩,
      hs.recorded.invalidate storeId timestamp reason'⟩

theorem calls_sound (run : Calls host messages calls db) : Sound host calls db := by
  induction run with
  | start => exact ⟨coherent_start host messages,
        ⟨fun _ _ h => (nomatch h), fun _ _ h => (nomatch h)⟩, fun _ _ h => (nomatch h)⟩
  | publish pub run ih => exact ih.publish pub
  | invalidate storeId reason invalidatedAt now run ih => exact ih.invalidate storeId reason invalidatedAt now

/-- The store that a publication of a run found is one that an earlier part of the run left. -/
theorem Calls.found (run : Calls host messages calls db) {call : Publication × Db} (hcall : call ∈ calls) :
    ∃ earlier, Calls host messages earlier call.2 ∧ call :: earlier ⊆ calls := by
  induction run with
  | start => cases hcall
  | @publish calls db pub run ih =>
    obtain rfl | hcall := List.mem_cons.mp hcall
    · exact ⟨calls, run, List.Subset.refl _⟩
    · obtain ⟨earlier, hrun, hsubset⟩ := ih hcall
      exact ⟨earlier, hrun, fun x hx => List.mem_cons_of_mem _ (hsubset hx)⟩
  | invalidate storeId reason invalidatedAt now run ih => exact ih hcall

end

/-! ## The endpoints of a publication -/

section

variable {host : Host} {db db' : Db} {pub : Publication} {p : Prepared} {alreadyCurrent : Bool}

variable {id version : Text} {key : Key}

theorem activeEndpoint_iff : activeEndpoint db id = true ↔
    ∃ a, db.assertions.get id = some a ∧ isActive db a.payload.key = true := by
  simp [activeEndpoint, Option.any_eq_true]

theorem liveEndpoints_iff (hp : pub.prepared host = .ok p) : pub.LiveEndpoints host db ↔
    ∀ id ∈ pub.endpoints, activeEndpoint db id = true := by
  constructor
  · intro hlive id hid
    obtain ⟨row, hrow, rfl | rfl⟩ := (prepared_endpoints hp id).mp hid
    · exact (hlive p hp row hrow).1
    · exact (hlive p hp row hrow).2
  · intro hall q hq row hrow
    obtain rfl := Except.ok.inj (hp.symm.trans hq)
    exact ⟨hall _ ((prepared_endpoints hp _).mpr ⟨row, hrow, .inl rfl⟩),
      hall _ ((prepared_endpoints hp _).mpr ⟨row, hrow, .inr rfl⟩)⟩

/-- Where one receipt comes into force, the endpoints under it do. -/
theorem ready_iff_active (hassertions : db'.assertions = db.assertions)
    (hactive : ∀ key, isActive db' key = true ↔ key = pub.key ∨ isActive db key = true)
    (hsome : (db.sources.get pub.key).isSome) :
    (∀ id ∈ pub.endpoints, activeEndpoint db' id = true) ↔ pub.Ready db := by
  have hone : ∀ id, activeEndpoint db' id = true ↔
      (db.assertions.get id).any (fun a => a.payload.key = pub.key ∨ isActive db a.payload.key) = true := by
    intro id
    rw [activeEndpoint_iff, hassertions, Option.any_eq_true]
    simp only [hactive, decide_eq_true_eq]
  simp only [Publication.Ready, hsome, forall_const, hone]

/-- The endpoints are live after a publication exactly when it was ready before. -/
theorem live_iff_ready (hp : pub.prepared host = .ok p)
    (h : Published host pub.snapshot p pub.now pub.clock db db' alreadyCurrent) :
    pub.LiveEndpoints host db' ↔ pub.Ready db := by
  have hkey := prepared_key hp
  cases h with
  | same receipt hget hmark hrecords hdb =>
    rw [hkey] at hget
    rw [hdb, liveEndpoints_iff hp]
    refine ready_iff_active rfl (fun key => ?_) (by rw [hget]; rfl)
    refine ⟨.inr, fun h => h.elim (fun he => ?_) id⟩
    rw [he]
    exact isActive_iff.mpr ⟨receipt, hget, hmark⟩
  | reactivated receipt hcurrent hget hrecords hdb =>
    rw [hkey] at hget
    rw [liveEndpoints_iff hp]
    refine ready_iff_active (by rw [hdb]) (fun key => ?_) (by rw [hget]; rfl)
    rw [isActive_iff, isActive_iff, hdb, hkey]
    by_cases he : key = pub.key
    · subst he
      refine iff_of_true ⟨receipt.reactivate pub.snapshot pub.now, ?_, rfl⟩ (.inl rfl)
      rw [KeyedTable.get_modify_self, hget, Option.map_some]
    · simp only [KeyedTable.get_modify_of_ne _ _ he, he, false_or]
  | inserted hcurrent hget hinsert =>
    rw [hkey] at hget
    obtain ⟨mid, -, hrest⟩ := insertOutput_cases hinsert
    have hins := relations_inserted hrest
    have hsame : ∀ id, activeEndpoint db' id = activeEndpoint mid id := by
      intro id
      rw [activeEndpoint, activeEndpoint, hins.assertions]
      simp only [isActive, hins.sources]
    refine iff_of_true (fun q hq row hrow => ?_) fun hsome => ?_
    · obtain rfl := Except.ok.inj (hp.symm.trans hq)
      rw [hsame, hsame]
      exact hins.endpoints row hrow
    · rw [hget] at hsome
      cases hsome

/-! ## What the query returns -/

/-- A row whose own receipt and endpoints are active. -/
def Shown (db : Db) (version : Text) (id : Text) (r : StoredRelation) : Prop :=
  db.relations.get id = some r ∧ r.payload.key.version = version ∧ isActive db r.payload.key = true ∧
    activeEndpoint db r.payload.fromAssertionId = true ∧ activeEndpoint db r.payload.toAssertionId = true

theorem activeContent_iff {content : Text} : activeContent db key = some content ↔
    isActive db key = true ∧ ∃ m, db.messages.get key.storeId = some m ∧ m.content.getD [] = content := by
  rw [activeContent]
  split
  · rename_i hactive
    rw [Option.map_eq_some_iff]
    exact (and_iff_right hactive).symm
  · rename_i hactive
    exact iff_of_false (fun h => by cases h) fun h => hactive h.1

theorem activeContent_some (hc : Coherent host db) (hactive : isActive db key = true) :
    ∃ content, activeContent db key = some content := by
  obtain ⟨receipt, hreceipt, hmark⟩ := isActive_iff.mp hactive
  obtain ⟨m, hm, -⟩ := hc.current _ receipt hreceipt hmark
  exact ⟨m.content.getD [], activeContent_iff.mpr ⟨hactive, m, hm, rfl⟩⟩

theorem joinEndpoint_ok {found : StoredAssertion × Text} (h : joinEndpoint db id = some found) :
    db.assertions.get id = some found.1 ∧ activeContent db found.1.payload.key = some found.2 := by
  rw [joinEndpoint] at h
  obtain ⟨a, ha, h⟩ := Option.bind_eq_some_iff.mp h
  obtain ⟨content, hcontent, h⟩ := Option.bind_eq_some_iff.mp h
  obtain rfl := Option.some.inj h
  exact ⟨ha, hcontent⟩

theorem joinEndpoint_iff (hc : Coherent host db) : (∃ found, joinEndpoint db id = some found) ↔
    activeEndpoint db id = true := by
  rw [activeEndpoint_iff]
  constructor
  · rintro ⟨found, h⟩
    obtain ⟨hget, hcontent⟩ := joinEndpoint_ok h
    exact ⟨found.1, hget, (activeContent_iff.mp hcontent).1⟩
  · rintro ⟨a, hget, hactive⟩
    obtain ⟨content, hcontent⟩ := activeContent_some hc hactive
    exact ⟨(a, content), by simp [joinEndpoint, hget, hcontent]⟩

theorem joinRelation_ok {row : Text × StoredRelation} {joined : JoinedRelation}
    (h : joinRelation db version row = some joined) :
    (joined.relationId, joined.relation) = row ∧ row.2.payload.key.version = version ∧
      activeContent db row.2.payload.key = some joined.content ∧
      joinEndpoint db row.2.payload.fromAssertionId = some joined.source ∧
      joinEndpoint db row.2.payload.toAssertionId = some joined.target := by
  rw [joinRelation] at h
  obtain ⟨content, hcontent, h⟩ := Option.bind_eq_some_iff.mp h
  obtain ⟨source, hsource, h⟩ := Option.bind_eq_some_iff.mp h
  obtain ⟨target, htarget, h⟩ := Option.bind_eq_some_iff.mp h
  obtain rfl := Option.some.inj h
  obtain ⟨hown, hversion⟩ := Option.filter_eq_some_iff.mp hcontent
  exact ⟨rfl, of_decide_eq_true hversion, hown, hsource, htarget⟩

theorem joinRelation_iff (hc : Coherent host db) (row : Text × StoredRelation) :
    (∃ joined, joinRelation db version row = some joined) ↔
      row.2.payload.key.version = version ∧ isActive db row.2.payload.key = true ∧
      activeEndpoint db row.2.payload.fromAssertionId = true ∧
      activeEndpoint db row.2.payload.toAssertionId = true := by
  rw [← joinEndpoint_iff hc, ← joinEndpoint_iff hc]
  constructor
  · rintro ⟨joined, h⟩
    obtain ⟨-, hversion, hown, hsource, htarget⟩ := joinRelation_ok h
    exact ⟨hversion, (activeContent_iff.mp hown).1, ⟨_, hsource⟩, ⟨_, htarget⟩⟩
  · rintro ⟨hversion, hactive, ⟨source, hsource⟩, ⟨target, htarget⟩⟩
    obtain ⟨content, hcontent⟩ := activeContent_some hc hactive
    exact ⟨⟨row.1, row.2, content, source, target⟩,
      by simp [joinRelation, Option.filter, hversion, hcontent, hsource, htarget]⟩

/-- What an active receipt covers is as its message has it. -/
theorem validateSourceProvenance_ok (hc : Coherent host db) {content : Text}
    (hcontent : activeContent db key = some content)
    {start stop : Int} {quote : Text} (hquotes : Quotes db key start stop quote) (label : String) :
    validateSourceProvenance host content key.contentSha256 start stop quote label = .ok () := by
  obtain ⟨hactive, m, hm, rfl⟩ := activeContent_iff.mp hcontent
  obtain ⟨receipt, hreceipt, hmark⟩ := isActive_iff.mp hactive
  obtain ⟨m', hm', hsha⟩ := hc.current key receipt hreceipt hmark
  obtain rfl := Option.some.inj (hm.symm.trans hm')
  rw [validateSourceProvenance, if_neg (not_not.mpr hsha.symm), if_neg (not_not.mpr (hquotes m hm))]

theorem validate_ok (hc : Coherent host db) (hg : Grounded db) {row : Text × StoredRelation}
    (hrow : row ∈ db.relations.rows)
    {joined : JoinedRelation} (h : joinRelation db version row = some joined) :
    joined.validate host = .ok (joined.relationId, joined.relation) := by
  obtain ⟨rfl, -, hown, hsource, htarget⟩ := joinRelation_ok h
  obtain ⟨hfrom, hfromContent⟩ := joinEndpoint_ok hsource
  obtain ⟨hto, htoContent⟩ := joinEndpoint_ok htarget
  rw [JoinedRelation.validate, validateEndpoint, validateEndpoint,
    validateSourceProvenance_ok hc hown (hg.relations _ _ (KeyedTable.get_eq_some.mpr hrow)),
    validateSourceProvenance_ok hc hfromContent (hg.assertions _ _ hfrom),
      validateSourceProvenance_ok hc htoContent (hg.assertions _ _ hto)]
  rfl

/-- The query succeeds, with the rows that are shown. -/
theorem queryRelations_ok (hc : Coherent host db) (hg : Grounded db) {extractionVersion : Text}
    (hversion : validatedVersion extractionVersion = .ok version) :
    ∃ rows, queryRelations host extractionVersion db = .ok rows ∧ ∀ id r, (id, r) ∈ rows ↔ Shown db version id r := by
  have hjoined : ∀ joined ∈ (db.relations.rows.filterMap (joinRelation db version)).insertionSort (fun a b =>
      a.relation.createdAt < b.relation.createdAt ∨
        (a.relation.createdAt = b.relation.createdAt ∧ a.relationId ≤ b.relationId)),
      joined.validate host = .ok (joined.relationId, joined.relation) := by
    intro joined hmem
    obtain ⟨row, hrow, h⟩ := List.mem_filterMap.mp ((List.mem_insertionSort _).mp hmem)
    exact validate_ok hc hg hrow h
  refine ⟨_, by rw [queryRelations, hversion]; exact Fallible.mapM_of_ok hjoined, fun id r => ?_⟩
  simp only [List.mem_map, List.mem_insertionSort, List.mem_filterMap]
  constructor
  · rintro ⟨joined, ⟨row, hrow, h⟩, hsame⟩
    obtain ⟨hrowSame, -⟩ := joinRelation_ok h
    obtain rfl := hrowSame.symm.trans hsame
    exact ⟨KeyedTable.get_eq_some.mpr hrow, (joinRelation_iff hc (id, r)).mp ⟨joined, h⟩⟩
  · rintro ⟨hget, hshown⟩
    obtain ⟨joined, h⟩ := (joinRelation_iff hc (id, r)).mpr hshown
    exact ⟨joined, ⟨(id, r), KeyedTable.get_eq_some.mp hget, h⟩, (joinRelation_ok h).1⟩

/-- Where the rows of the publication are stored under an active receipt, the query returns all of
them or an endpoint is dead. -/
theorem returned_iff_live (hc : Coherent host db) (hg : Grounded db) (hp : pub.prepared host = .ok p)
    (hactive : isActive db pub.key = true)
    (hstored : ∀ row ∈ p.relations, ∃ createdAt, db.relations.get row.relationId = some ⟨row.payload, createdAt⟩) :
    pub.Returned host db (p.result pub.snapshot alreadyCurrent) ↔ pub.LiveEndpoints host db := by
  obtain ⟨rows, hrows, hmem⟩ := queryRelations_ok hc hg (prepared_ok hp).1
  have hshown : ∀ row ∈ p.relations, row.relationId ∈ rows.map Prod.fst ↔
      activeEndpoint db row.payload.fromAssertionId = true ∧ activeEndpoint db row.payload.toAssertionId = true := by
    intro row hrow
    obtain ⟨createdAt, hget⟩ := hstored row hrow
    have hkey : row.payload.key = pub.key := ((prepare_keys hp).2 row hrow).trans (prepared_key hp)
    have hversion : row.payload.key.version = p.version := by
      rw [(prepare_keys hp).2 row hrow]
      rfl
    rw [List.mem_map]
    constructor
    · rintro ⟨⟨id, r⟩, hin, rfl⟩
      obtain ⟨hfound, -, -, hends⟩ := (hmem _ r).mp hin
      obtain rfl := Option.some.inj (hget.symm.trans hfound)
      exact hends
    · intro hends
      exact ⟨(row.relationId, ⟨row.payload, createdAt⟩),
        (hmem _ _).mpr ⟨hget, hversion, by rw [hkey]; exact hactive, hends⟩, rfl⟩
  constructor
  · rintro ⟨rows', hrows', hall⟩ q hq row hrow
    obtain rfl := Except.ok.inj (hrows.symm.trans hrows')
    obtain rfl := Except.ok.inj (hp.symm.trans hq)
    exact (hshown row hrow).mp (hall _ (List.mem_map_of_mem hrow))
  · intro hlive
    refine ⟨rows, hrows, fun id hid => ?_⟩
    obtain ⟨row, hrow, rfl⟩ := List.mem_map.mp hid
    exact (hshown row hrow).mpr (hlive p hp row hrow)

/-- In a run of publications and invalidations, a publication that returns has live endpoints
exactly when those it names were its own or active in the store that it found, or its source had no
receipt there. Where the digests tell the outputs apart, the query then returns its relations, and
only then all of them. -/
theorem published_relations_live {messages : KeyedTable Int Message}
    {calls : List (Publication × Db)} (run : Calls host messages calls db) :
    ∀ call ∈ calls, ∀ result, (call.1.publish host call.2).2 = .ok result →
      (call.1.LiveEndpoints host (call.1.publish host call.2).1 ↔ call.1.Ready call.2) ∧
      (DigestsApart host calls →
      (call.1.Returned host (call.1.publish host call.2).1 result ↔ call.1.Ready call.2)) := by
  rintro ⟨pub, before⟩ hcall result hresult
  obtain ⟨earlier, hearlier, hsubset⟩ := run.found hcall
  have hafter : Sound host ((pub, before) :: earlier) (pub.publish host before).1 := (calls_sound hearlier).publish pub
  obtain ⟨p, hp, -, alreadyCurrent, rfl, hpublished⟩ := publishSource_ok hresult
  have hlive : pub.LiveEndpoints host (pub.publish host before).1 ↔ pub.Ready before := live_iff_ready hp hpublished
  refine ⟨hlive, fun hdigests => ?_⟩
  obtain ⟨receipt, hget, hmark, hrecords⟩ := hpublished.receipt (prepare_keys hp).1
  rw [prepared_key hp] at hget
  obtain ⟨other, hother, hkey, q, hq, hdigest, hstored⟩ := hafter.recorded pub.key receipt hget
  have hsame : q.relations = p.relations :=
    hdigests other (hsubset hother) (pub, before) hcall hkey q p hq hp (hdigest.symm.trans hrecords.1)
  rw [hsame] at hstored
  exact (returned_iff_live hafter.coherent hafter.grounded hp
    (isActive_iff.mpr ⟨receipt, hget, hmark⟩) hstored).trans hlive

end

/-! ## Two notes, of which one supersedes the other -/

theorem length_dumps_obj {ms : List (String × Json.Value)} (hms : ms ≠ []) :
    (Json.dumps Json.compact (.obj ms)).length =
      (ms.map fun m => (Json.quote false m.1).length + (Json.dumps Json.compact m.2).length + 2).sum + 1 := by
  have hobj := Json.length_dumps_obj Json.compact hms
  have hfun : (fun m : String × Json.Value => (Json.quote Json.compact.ascii m.1).length + Json.compact.colon.length +
      (Json.dumps Json.compact m.2).length + Json.compact.comma.length) =
      fun m => (Json.quote false m.1).length + (Json.dumps Json.compact m.2).length + 2 := by
    funext m
    simp only [Json.compact, List.length_singleton]
    omega
  rw [hfun] at hobj
  exact Nat.succ.inj hobj

theorem canonicalJson_ok {value : Json.Value} (h : (Json.dumps Json.compact value).length ≤ maxObjectJsonChars) :
    canonicalJson (some value) = .ok (Json.dumps Json.compact value) := by
  rw [canonicalJson, require, if_pos (by simpa using h)]
  rfl

section

variable {host : Host} {pub : Publication} {version : Text}

theorem prepareAssertion_of {candidate : AssertionCandidate} {payload : AssertionPayload}
    (h : assertionPayload pub.snapshot candidate version = .ok payload)
    (hlen : (Json.dumps Json.compact (.obj (payload.members host))).length ≤ maxObjectJsonChars) :
    prepareAssertion host pub.snapshot version candidate = .ok
      ⟨host.sha256 (Json.dumps Json.compact (.obj (payload.members host))), payload⟩ := by
  rw [prepareAssertion, h, Fallible.bind_of_ok rfl, canonicalJson_ok hlen]
  rfl

theorem prepareRelation_of {candidate : AssertionRelationCandidate} {payload : RelationPayload}
    (h : relationPayload pub.snapshot candidate version = .ok payload)
    (hlen : (Json.dumps Json.compact (.obj (payload.members host))).length ≤ maxObjectJsonChars) :
    prepareRelation host pub.snapshot version candidate = .ok
      ⟨host.sha256 (Json.dumps Json.compact (.obj (payload.members host))), payload⟩ := by
  rw [prepareRelation, h, Fallible.bind_of_ok rfl, canonicalJson_ok hlen]
  rfl

def outputJson (host : Host) (assertions : List AssertionRow) (relations : List RelationRow) : Json.Value :=
  .obj [("assertions", .arr (assertions.map (AssertionRow.json host))),
    ("relations", .arr (relations.map (RelationRow.json host)))]

theorem sorted_of_length_le_one : ∀ {rows : List RelationRow}, rows.length ≤ 1 →
    rows.insertionSort (fun a b => a.relationId ≤ b.relationId) = rows ∧ (rows.map RelationRow.relationId).Nodup
  | [], _ => ⟨rfl, List.nodup_nil⟩
  | [_], _ => ⟨rfl, List.nodup_singleton _⟩

/-- One assertion and at most one relation. -/
theorem prepared_of {candidate : AssertionCandidate} {row : AssertionRow} {relations : List RelationRow}
    (hversion : validatedVersion pub.extractionVersion = .ok version) (hcandidates : pub.candidates = [candidate])
    (hrow : prepareAssertion host pub.snapshot version candidate = .ok row) (hcount : pub.relations.length ≤ 1)
    (hrelations : pub.relations.mapM (prepareRelation host pub.snapshot version) = .ok relations)
    (hlen : (Json.dumps Json.compact (outputJson host [row] relations)).length ≤ maxObjectJsonChars) :
    pub.prepared host = .ok ⟨version, [row], relations,
      host.sha256 (Json.dumps Json.compact (outputJson host [row] relations))⟩ := by
  have hone : relations.length ≤ 1 := by rw [← (Fallible.mapM_ok hrelations).length_eq]; exact hcount
  have hsorted := sorted_of_length_le_one hone
  have hrequire : ∀ {ok : Bool} (message : String), ok = true → require ok message = .ok () := by
    rintro _ message rfl
    rfl
  have hassertions : pub.candidates.mapM (prepareAssertion host pub.snapshot version) = .ok [row] := by
    rw [hcandidates, List.mapM_cons, hrow]
    rfl
  have hmany : pub.relations.length ≤ maxCandidatesPerSource := hcount.trans (by decide)
  rw [Publication.prepared, prepare, Fallible.bind_of_ok hversion,
    Fallible.bind_of_ok (hrequire _ (decide_eq_true (by rw [hcandidates]; exact Nat.succ_le_succ (Nat.zero_le _)))),
    Fallible.bind_of_ok (hrequire _ (decide_eq_true hmany)), Fallible.bind_of_ok hassertions,
      Fallible.bind_of_ok hrelations]
  simp only [hsorted.1, List.insertionSort_cons, List.insertionSort_nil, List.orderedInsert]
  rw [List.map_singleton, Fallible.bind_of_ok
    (hrequire _ (decide_eq_true (List.nodup_singleton row.assertionId))),
    Fallible.bind_of_ok (hrequire _ (decide_eq_true hsorted.2))]
  exact (Fallible.bind_of_ok (canonicalJson_ok hlen)).trans rfl

end

def digestText (n : Nat) : Text := (List.range 64).reverse.map fun i => Json.hexDigit (n / 16 ^ i % 16)

def noteVersion : Text := ['v', '1']

def teaKey : Key := ⟨1, noteVersion, digestText 2⟩

/-- "tea" in the first message. -/
def teaPayload : AssertionPayload where
  key := teaKey
  subjectKey := ['u']
  predicateKey := ['l']
  objectJson := ['n', 'u', 'l', 'l']
  valueText := []
  kind := "fact".toList
  polarity := "positive".toList
  strength := none
  scopeKey := []
  speakerRole := ['u']
  observedAt := 1
  eventAt := none
  validFrom := none
  validTo := none
  sourceSpanStart := 0
  sourceSpanEnd := 3
  sourceQuote := ['t', 'e', 'a']
  confidence := 1

def milkPayload : AssertionPayload :=
  { teaPayload with key := ⟨2, noteVersion, digestText 2⟩, sourceSpanEnd := 4, sourceQuote := ['m', 'i', 'l', 'k'] }

theorem relation_members_ne_nil (payload : RelationPayload) : payload.members plainHost ≠ [] := by
  simp [RelationPayload.members, Key.members]

theorem members_ne_nil (payload : AssertionPayload) : payload.members plainHost ≠ [] := by
  simp [AssertionPayload.members, Key.members]

theorem length_text (t : Text) :
    (Json.dumps Json.compact (text t)).length = (t.flatMap (Json.escape false)).length + 2 := by
  rw [text, Json.dumps, Json.quote, String.toList_ofList]
  simp [Json.compact]

/-- The length of an object whose keys are given by their characters, which are not decoded from their bytes. -/
theorem length_dumps_keys {ms : List (String × Json.Value)} {keys : List Text} (hms : ms ≠ [])
    (hkeys : ms.map Prod.fst = keys.map String.ofList) :
    (Json.dumps Json.compact (.obj ms)).length =
      (keys.map fun key => (key.flatMap (Json.escape false)).length + 4).sum +
      (ms.map fun m => (Json.dumps Json.compact m.2).length).sum + 1 := by
  have hquote : (ms.map fun m => (Json.quote false m.1).length + 2) =
      keys.map fun key => (key.flatMap (Json.escape false)).length + 4 := by
    have hmap := congrArg (List.map fun key => (Json.quote false key).length + 2) hkeys
    rw [List.map_map, List.map_map] at hmap
    refine Eq.trans hmap (List.map_congr_left fun key _ => ?_)
    simp [Json.quote]
  rw [length_dumps_obj hms, ← hquote]
  clear hquote hkeys hms
  induction ms with
  | nil => rfl
  | cons m ms ih =>
    simp only [List.map_cons, List.sum_cons] at ih ⊢
    omega

def assertionKeys : List Text := [
    ['s', 'o', 'u', 'r', 'c', 'e', '_', 's', 't', 'o', 'r', 'e', '_', 'i', 'd'],
    ['e', 'x', 't', 'r', 'a', 'c', 't', 'i', 'o', 'n', '_', 'v', 'e', 'r', 's', 'i', 'o', 'n'],
    ['s', 'o', 'u', 'r', 'c', 'e', '_', 'c', 'o', 'n', 't', 'e', 'n', 't', '_', 's', 'h', 'a', '2',
      '5', '6'], ['s', 'u', 'b', 'j', 'e', 'c', 't', '_', 'k', 'e', 'y'],
    ['p', 'r', 'e', 'd', 'i', 'c', 'a', 't', 'e', '_', 'k', 'e', 'y'],
      ['o', 'b', 'j', 'e', 'c', 't', '_', 'j', 's', 'o', 'n'],
    ['v', 'a', 'l', 'u', 'e', '_', 't', 'e', 'x', 't'], ['k', 'i', 'n', 'd'],
      ['p', 'o', 'l', 'a', 'r', 'i', 't', 'y'], ['s', 't', 'r', 'e', 'n', 'g', 't', 'h'],
    ['s', 'c', 'o', 'p', 'e', '_', 'k', 'e', 'y'], ['s', 'p', 'e', 'a', 'k', 'e', 'r', '_', 'r',
      'o', 'l', 'e'], ['o', 'b', 's', 'e', 'r', 'v', 'e', 'd', '_', 'a', 't'],
    ['e', 'v', 'e', 'n', 't', '_', 'a', 't'], ['v', 'a', 'l', 'i', 'd', '_', 'f', 'r', 'o', 'm'],
      ['v', 'a', 'l', 'i', 'd', '_', 't', 'o'],
    ['s', 'o', 'u', 'r', 'c', 'e', '_', 's', 'p', 'a', 'n', '_', 's', 't', 'a', 'r', 't'],
      ['s', 'o', 'u', 'r', 'c', 'e', '_', 's', 'p', 'a', 'n', '_', 'e', 'n', 'd'],
    ['s', 'o', 'u', 'r', 'c', 'e', '_', 'q', 'u', 'o', 't', 'e'], ['c', 'o', 'n', 'f', 'i', 'd', 'e', 'n', 'c', 'e']]

def milkRelation : RelationPayload :=
  ⟨⟨2, noteVersion, digestText 2⟩, digestText 2, "supersedes".toList, digestText 1, 0, 4, ['m', 'i', 'l', 'k'], 1⟩

def relationKeys : List Text := assertionKeys.take 3 ++ [
    ['f', 'r', 'o', 'm', '_', 'a', 's', 's', 'e', 'r', 't', 'i', 'o', 'n', '_', 'i', 'd'],
      ['r', 'e', 'l', 'a', 't', 'i', 'o', 'n', '_', 't', 'y', 'p', 'e'],
    ['t', 'o', '_', 'a', 's', 's', 'e', 'r', 't', 'i', 'o', 'n', '_', 'i', 'd'],
      ['s', 'o', 'u', 'r', 'c', 'e', '_', 's', 'p', 'a', 'n', '_', 's', 't', 'a', 'r', 't'],
    ['s', 'o', 'u', 'r', 'c', 'e', '_', 's', 'p', 'a', 'n', '_', 'e', 'n', 'd'],
      ['s', 'o', 'u', 'r', 'c', 'e', '_', 'q', 'u', 'o', 't', 'e'],
    ['c', 'o', 'n', 'f', 'i', 'd', 'e', 'n', 'c', 'e']]

/-- The milk's quote is longer by one character. -/
theorem note_lengths : (Json.dumps Json.compact (.obj (teaPayload.members plainHost))).length = 447 ∧
    (Json.dumps Json.compact (.obj (milkPayload.members plainHost))).length = 448 ∧
    (Json.dumps Json.compact (.obj (milkRelation.members plainHost))).length = 420 := by
  refine ⟨?_, ?_, ?_⟩
  · rw [@length_dumps_keys _ assertionKeys (members_ne_nil _) rfl]
    simp only [AssertionPayload.members, Key.members, List.map_append, List.map_cons, List.map_nil, length_text]
    decide +kernel
  · rw [@length_dumps_keys _ assertionKeys (members_ne_nil _) rfl]
    simp only [AssertionPayload.members, Key.members, List.map_append, List.map_cons, List.map_nil, length_text]
    decide +kernel
  · rw [@length_dumps_keys _ relationKeys (relation_members_ne_nil _) rfl]
    simp only [RelationPayload.members, Key.members, List.map_append, List.map_cons, List.map_nil, length_text]
    decide +kernel

/-- A digest that tells the two assertions apart. -/
def noteHost : Host :=
  { plainHost with
    sha256 := fun value => if value = Json.dumps Json.compact
      (.obj (teaPayload.members plainHost)) then digestText 1 else digestText 2 }

theorem sha256_tea : noteHost.sha256 (Json.dumps Json.compact (.obj (teaPayload.members plainHost))) =
    digestText 1 := by
  simp only [noteHost, if_true]

theorem sha256_of_length {value : Text} (h : value.length ≠ 447) : noteHost.sha256 value = digestText 2 := by
  refine if_neg fun he => h ?_
  rw [he, note_lengths.1]

theorem members_noteHost (payload : AssertionPayload) : payload.members noteHost = payload.members plainHost := rfl

theorem relation_members_noteHost (payload : RelationPayload) :
    payload.members noteHost = payload.members plainHost := rfl

def note (content : Text) : Message := ⟨['s'], some ['c'], ['u'], some content, 1, none⟩

def noteMessages : KeyedTable Int Message := ⟨[(1, note ['t', 'e', 'a']), (2, note ['m', 'i', 'l', 'k'])], by decide⟩

def noteCandidate (stop : Int) : AssertionCandidate :=
  { sourceSpanStart := 0, sourceSpanEnd := stop, subjectKey := ['u'], predicateKey := ['l'] }

def milkCandidate : AssertionRelationCandidate :=
  { sourceSpanStart := 0, sourceSpanEnd := 4, fromAssertionId := digestText 2,
    relationType := "supersedes".toList, toAssertionId := digestText 1 }

def teaNote : Publication :=
  ⟨⟨1, ['s'], ['c'], ['u'], ['t', 'e', 'a'], 1, digestText 2⟩, [noteCandidate 3], [], noteVersion, 2, fun _ => 2⟩

def milkNote : Publication :=
  ⟨⟨2, ['s'], ['c'], ['u'], ['m', 'i', 'l', 'k'], 1, digestText 2⟩, [noteCandidate 4],
    [milkCandidate], noteVersion, 3, fun _ => 3⟩

def teaPrepared : Prepared := ⟨noteVersion, [⟨digestText 1, teaPayload⟩], [], digestText 2⟩

def milkPrepared : Prepared :=
  ⟨noteVersion, [⟨digestText 2, milkPayload⟩], [⟨digestText 2, milkRelation⟩], digestText 2⟩

/-- What the two notes evaluate to. -/
theorem note_facts : (∀ k < 16, Json.escape false (Json.hexDigit k) = [Json.hexDigit k]) ∧
    ((Json.quote false "assertion_id").length = 14 ∧
      (Json.quote false "relation_id").length = 13 ∧ (Json.quote false "assertions").length = 12 ∧
      (Json.quote false "relations").length = 11) ∧
    validatedVersion noteVersion = .ok noteVersion ∧
      assertionPayload teaNote.snapshot (noteCandidate 3) noteVersion = .ok teaPayload ∧
    assertionPayload milkNote.snapshot (noteCandidate 4) noteVersion = .ok milkPayload ∧
    relationPayload milkNote.snapshot milkCandidate noteVersion = .ok milkRelation ∧
      milkNote.key ≠ teaNote.key := by decide +kernel

theorem length_row (row : AssertionRow) : (Json.dumps Json.compact (row.json noteHost)).length =
    (Json.dumps Json.compact (.obj (row.payload.members plainHost))).length +
    (Json.dumps Json.compact (text row.assertionId)).length + 16 := by
  have hkey := note_facts.2.1.1
  rw [AssertionRow.json, length_dumps_obj (by simp), length_dumps_obj (members_ne_nil _),
    List.map_append, List.sum_append, List.map_singleton,
    List.sum_singleton, hkey]
  simp only [members_noteHost]
  omega

theorem length_output (rows : List AssertionRow) (relations : List RelationRow) :
    (Json.dumps Json.compact (outputJson noteHost rows relations)).length =
    (Json.dumps Json.compact (.arr (rows.map (AssertionRow.json noteHost)))).length +
      (Json.dumps Json.compact (.arr (relations.map (RelationRow.json noteHost)))).length + 28 := by
  have hkeys := note_facts.2.1.2.2
  rw [outputJson, length_dumps_obj (by simp)]
  simp only [List.map_cons, List.map_nil, List.sum_cons, List.sum_nil, hkeys.1, hkeys.2]
  omega

theorem length_single (value : Json.Value) : (Json.dumps Json.compact (.arr [value])).length =
    (Json.dumps Json.compact value).length + 2 := by
  simp [Json.dumps, Json.dumpsItems]

theorem length_id (n : Nat) : (Json.dumps Json.compact (text (digestText n))).length = 66 := by
  have hplain : ∀ c ∈ digestText n, Json.escape false c = [c] := by
    intro c hc
    obtain ⟨i, -, rfl⟩ := List.mem_map.mp hc
    exact note_facts.1 _ (Nat.mod_lt _ (by decide))
  rw [text, Json.dumps, Json.quote, String.toList_ofList, Json.compact, List.flatMap_congr hplain]
  simp [digestText]

/-- A relation row, as an assertion row is measured. -/
theorem length_relationRow (row : RelationRow) : (Json.dumps Json.compact (row.json noteHost)).length =
    (Json.dumps Json.compact (.obj (row.payload.members plainHost))).length +
    (Json.dumps Json.compact (text row.relationId)).length + 15 := by
  have hkey := note_facts.2.1.2.1
  rw [RelationRow.json, length_dumps_obj (by simp), length_dumps_obj (relation_members_ne_nil _),
    List.map_append, List.sum_append, List.map_singleton,
    List.sum_singleton, hkey]
  simp only [relation_members_noteHost]
  omega

/-- The lengths are variables here: the kernel would evaluate a sum of two texts' lengths. -/
theorem length_output_of {id : Nat} {payload : AssertionPayload} {relations : List RelationRow} {k r : Nat}
    (hpayload : (Json.dumps Json.compact (.obj (payload.members plainHost))).length = k)
    (hrelations : (Json.dumps Json.compact (.arr (relations.map (RelationRow.json noteHost)))).length = r) :
    (Json.dumps Json.compact (outputJson noteHost [⟨digestText id, payload⟩] relations)).length = k + r + 112 := by
  rw [length_output, List.map_singleton, length_single, length_row, hpayload, hrelations, length_id]
  omega

theorem length_relations_of {id : Nat} {payload : RelationPayload} {k : Nat}
    (hpayload : (Json.dumps Json.compact (.obj (payload.members plainHost))).length = k) :
    (Json.dumps Json.compact (.arr ([⟨digestText id, payload⟩].map (RelationRow.json noteHost)))).length = k + 83 := by
  rw [List.map_singleton, length_single, length_relationRow, hpayload, length_id]

theorem le_max {n : Nat} (h : n ≤ 2000) : n ≤ maxObjectJsonChars := h.trans (by simp [maxObjectJsonChars])

theorem teaNote_prepared : teaNote.prepared noteHost = .ok teaPrepared := by
  obtain ⟨-, -, hversion, hpayload, -⟩ := note_facts
  have hbound : (Json.dumps Json.compact (.obj (teaPayload.members noteHost))).length ≤ 2000 := by
    rw [members_noteHost, note_lengths.1]
    omega
  have hrow := prepareAssertion_of hpayload (le_max hbound)
  rw [members_noteHost, sha256_tea] at hrow
  have hlen : (Json.dumps Json.compact (outputJson noteHost [⟨digestText 1, teaPayload⟩] [])).length =
      561 := length_output_of note_lengths.1 rfl
  have hnone : teaNote.relations.mapM (prepareRelation noteHost teaNote.snapshot noteVersion) = .ok [] := rfl
  rw [prepared_of hversion rfl hrow (by decide) hnone (le_max (by omega)), sha256_of_length (by omega)]
  rfl

theorem milkNote_prepared : milkNote.prepared noteHost = .ok milkPrepared := by
  obtain ⟨-, -, hversion, -, hpayload, hrelation, -⟩ := note_facts
  have hbound : (Json.dumps Json.compact (.obj (milkPayload.members noteHost))).length ≤ 2000 := by
    rw [members_noteHost, note_lengths.2.1]
    omega
  have hrow := prepareAssertion_of hpayload (le_max hbound)
  rw [members_noteHost, sha256_of_length (ne_of_eq_of_ne note_lengths.2.1 (by omega))] at hrow
  have hsame := relation_members_noteHost milkRelation
  have hrelationBound : (Json.dumps Json.compact (.obj (milkRelation.members noteHost))).length ≤ 2000 := by
    rw [hsame, note_lengths.2.2]
    omega
  have hrows := prepareRelation_of hrelation (le_max hrelationBound)
  rw [hsame, sha256_of_length (ne_of_eq_of_ne note_lengths.2.2 (by omega))] at hrows
  have hmapped : milkNote.relations.mapM (prepareRelation noteHost milkNote.snapshot noteVersion) =
      .ok [⟨digestText 2, milkRelation⟩] := by
    refine Fallible.mapM_of_ok (g := fun _ => (⟨digestText 2, milkRelation⟩ : RelationRow)) fun candidate hmem => ?_
    obtain rfl := List.mem_singleton.mp hmem
    exact hrows
  have hlen : (Json.dumps Json.compact
      (outputJson noteHost [⟨digestText 2, milkPayload⟩] [⟨digestText 2, milkRelation⟩])).length = 1063 :=
    length_output_of note_lengths.2.1 (length_relations_of note_lengths.2.2)
  rw [prepared_of hversion rfl hrow (by decide) hmapped (le_max (by omega)), sha256_of_length (by omega)]
  rfl

theorem publish_of {host : Host} {pub : Publication} {p : Prepared} (hp : pub.prepared host = .ok p) (db : Db) :
    pub.publish host db = inTransaction (publishTransaction host pub.snapshot p pub.now pub.clock) db := by
  rw [Publication.publish, publishSource,
    show prepare host pub.snapshot pub.candidates pub.relations pub.extractionVersion = .ok p from hp]

/-- The store after the first note. -/
def afterTea : Db := (inTransaction (publishTransaction noteHost teaNote.snapshot teaPrepared
    teaNote.now teaNote.clock) (ensureTables noteMessages)).1

def publishMilk (db : Db) : Db × Except Error PublishResult :=
  inTransaction (publishTransaction noteHost milkNote.snapshot milkPrepared milkNote.now milkNote.clock) db

def withoutTea : Db := (invalidateSource 1 ['m'] none 4 (publishMilk afterTea).1).1

theorem milk_facts : (publishMilk afterTea).2.isOk = true ∧ (afterTea.sources.get milkNote.key).isNone ∧
    (publishMilk withoutTea).2.isOk = true ∧ activeEndpoint (publishMilk withoutTea).1
    (digestText 1) = false := by decide +kernel

theorem afterTea_run : Calls noteHost noteMessages [(teaNote, ensureTables noteMessages)] afterTea := by
  have hrun := (Calls.start : Calls noteHost noteMessages [] _).publish teaNote
  rw [publish_of teaNote_prepared] at hrun
  exact hrun

theorem publish_milk (db : Db) : milkNote.publish noteHost db = publishMilk db := publish_of milkNote_prepared db

/-- The second note is new when it is published, so both endpoints are live and the query returns its relation. -/
theorem published_relations_live_milk : ∃ result, (publishMilk afterTea).2 = .ok result ∧
    milkNote.LiveEndpoints noteHost (publishMilk afterTea).1 ∧
    milkNote.Returned noteHost (publishMilk afterTea).1 result := by
  obtain ⟨hok, hnew, -⟩ := milk_facts
  obtain ⟨result, hresult⟩ := Fallible.exists_ok hok
  have hrun := afterTea_run.publish milkNote
  have hready : milkNote.Ready afterTea := by
    intro hsome
    rw [Option.isNone_iff_eq_none.mp hnew] at hsome
    cases hsome
  have hdigests : DigestsApart noteHost [(milkNote, afterTea), (teaNote, ensureTables noteMessages)] := by
    have hne : milkNote.key ≠ teaNote.key := note_facts.2.2.2.2.2.2
    intro call hcall call' hcall' hkey p p' hp hp' _
    have hsame : call.1 = call'.1 := by
      simp only [List.mem_cons, List.not_mem_nil, or_false] at hcall hcall'
      obtain rfl | rfl := hcall <;> obtain rfl | rfl := hcall'
      · rfl
      · exact absurd hkey hne
      · exact absurd hkey.symm hne
      · rfl
    rw [hsame] at hp
    rw [Except.ok.inj (hp.symm.trans hp')]
  have hboth := published_relations_live hrun (milkNote, afterTea) List.mem_cons_self result
    (by rw [publish_milk]; exact hresult)
  rw [publish_milk] at hboth
  exact ⟨result, hresult, hboth.1.mpr hready, (hboth.2 hdigests).mpr hready⟩

/-- The second note points to the first one and is published again after that one was invalidated. -/
theorem milk_points_nowhere :
    ¬ ∀ (host : Host) (messages : KeyedTable Int Message) (calls : List (Publication × Db)) (db : Db),
    Calls host messages calls db → ∀ call ∈ calls, ∀ result, (call.1.publish host call.2).2 = .ok result →
      call.1.LiveEndpoints host (call.1.publish host call.2).1 := by
  intro h
  obtain ⟨-, -, hok, hdead⟩ := milk_facts
  have hrun := ((afterTea_run.publish milkNote).invalidate 1 ['m'] none 4).publish milkNote
  rw [publish_milk] at hrun
  obtain ⟨result, hresult⟩ := Fallible.exists_ok hok
  have hlive := h noteHost noteMessages _ _ hrun (milkNote, withoutTea) List.mem_cons_self result
    (by rw [publish_milk]; exact hresult)
  have hends := hlive milkPrepared milkNote_prepared ⟨digestText 2, milkRelation⟩ List.mem_cons_self
  rw [publish_milk, show milkRelation.toAssertionId = digestText 1 from rfl, hdead] at hends
  cases hends.2

end Assertion
