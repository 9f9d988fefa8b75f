import LcmX.AssertionStore

/-!
# What a call does to the receipts

A publication leaves the store, takes a receipt back into use, or inserts under a key that
had none. The other calls touch the marks of receipts, or take away whole versions.
-/
namespace Assertion

/-! ## Publication -/

theorem currentReceipt_spec {db : Db} {storeId : Int} {version : Text} {key : Key} {receipt : Receipt}
    (h : currentReceipt db storeId version = some (key, receipt)) :
    db.sources.get key = some receipt ∧ key.storeId = storeId ∧ key.version = version ∧ receipt.invalidated = none := by
  have hmem := List.mem_of_find?_eq_some h
  have hfound : key.storeId = storeId ∧ key.version = version ∧ receipt.invalidated.isNone := by
    simpa using List.find?_some h
  exact ⟨KeyedTable.get_eq_some.mpr hmem, hfound.1, hfound.2.1, Option.isNone_iff_eq_none.mp hfound.2.2⟩

theorem currentReceipt_none {db : Db} (key : Key) {receipt : Receipt}
    (h : currentReceipt db key.storeId key.version = none)
    (hget : db.sources.get key = some receipt) : receipt.invalidated.isSome := by
  have hnot := List.find?_eq_none.mp h (key, receipt) (KeyedTable.get_eq_some.mp hget)
  cases hmark : receipt.invalidated with
  | none => exact absurd hmark (by simpa using hnot)
  | some mark => rfl

/-- How a publication that is not refused ends. -/
inductive Published (host : Host) (snapshot : SourceSnapshot) (p : Prepared) (now : Rat)
    (clock : Text → Rat) (db db' : Db) : Bool → Prop
  | same (receipt : Receipt) (hget : db.sources.get (snapshot.key p.version) = some receipt)
      (hactive : receipt.invalidated = none)
      (hrecords : receipt.records p) (hdb : db' = db) : Published host snapshot p now clock db db' true
  | reactivated (receipt : Receipt) (hcurrent : currentReceipt db snapshot.storeId p.version = none)
      (hget : db.sources.get (snapshot.key p.version) = some receipt) (hrecords : receipt.records p)
      (hdb : db' = { db with
        sources := db.sources.modify (snapshot.key p.version) (Receipt.reactivate snapshot now) }) :
      Published host snapshot p now clock db db' true
  | inserted (hcurrent : currentReceipt db snapshot.storeId p.version = none)
      (hget : db.sources.get (snapshot.key p.version) = none)
      (hinsert : insertOutput snapshot p now clock db = .ok db') : Published host snapshot p now clock db db' false

theorem inTransaction_error {α : Type} {body : Db → Except Error (Db × α)} {db : Db} {error : Error}
    (h : (inTransaction body db).2 = .error error) :
    (inTransaction body db).1 = db := by
  rw [inTransaction] at h ⊢
  split
  · rename_i hbody
    rw [hbody] at h
    cases h
  · rfl

theorem inTransaction_ok {α : Type} {body : Db → Except Error (Db × α)} {db : Db} {result : α}
    (h : (inTransaction body db).2 = .ok result) :
    body db = .ok ((inTransaction body db).1, result) := by
  rw [inTransaction] at h ⊢
  split
  · rename_i hbody
    rw [hbody] at h ⊢
    rw [Except.ok.inj h]
  · rename_i hbody
    rw [hbody] at h
    cases h

section

variable {host : Host} {snapshot : SourceSnapshot} {candidates : List AssertionCandidate}
  {relations : List AssertionRelationCandidate}
  {extractionVersion : Text} {now : Rat} {clock : Text → Rat} {db db' : Db} {p : Prepared}

/-- What a publication that returns has read and written. -/
theorem publishTransaction_ok {result : PublishResult}
    (h : publishTransaction host snapshot p now clock db = .ok (db', result)) :
    (∃ m, db.messages.get snapshot.storeId = some m ∧ snapshotFromRow host snapshot.storeId m = snapshot) ∧
      ∃ alreadyCurrent, result = p.result snapshot alreadyCurrent ∧
      Published host snapshot p now clock db db' alreadyCurrent := by
  rw [publishTransaction] at h
  cases hm : db.messages.get snapshot.storeId with
  | none =>
    rw [hm] at h
    cases h
  | some m =>
    rw [hm] at h
    simp only at h
    split at h
    · cases h
    · rename_i hsnapshot
      refine ⟨⟨m, rfl, of_not_not hsnapshot⟩, ?_⟩
      cases hcurrent : currentReceipt db snapshot.storeId p.version with
      | some found =>
        obtain ⟨key, receipt⟩ := found
        rw [hcurrent] at h
        simp only at h
        split at h
        · rename_i hmatch
          obtain ⟨hget, hstore, hversion, hactive⟩ := currentReceipt_spec hcurrent
          obtain rfl : key = snapshot.key p.version := by
            obtain ⟨storeId, version, sha⟩ := key
            simp only at hstore hversion hmatch
            rw [SourceSnapshot.key, hstore, hversion, hmatch.1]
          obtain ⟨rfl, rfl⟩ := Prod.mk.inj (Except.ok.inj h)
          exact ⟨true, rfl, .same receipt hget hactive hmatch.2 rfl⟩
        · cases h
      | none =>
        rw [hcurrent] at h
        simp only at h
        cases hget : db.sources.get (snapshot.key p.version) with
        | some receipt =>
          have hmark : receipt.invalidated.isSome := currentReceipt_none (snapshot.key p.version) hcurrent hget
          rw [hget, Option.filter_some, if_pos hmark] at h
          simp only at h
          split at h
          · rename_i hrecords
            obtain ⟨rfl, rfl⟩ := Prod.mk.inj (Except.ok.inj h)
            exact ⟨true, rfl, .reactivated receipt hcurrent hget hrecords rfl⟩
          · cases h
        | none =>
          rw [hget, Option.filter_none] at h
          obtain ⟨inserted, hinsert, h⟩ := Fallible.bind_ok.mp h
          obtain ⟨rfl, rfl⟩ := Prod.mk.inj (Except.ok.inj h)
          exact ⟨false, rfl, .inserted hcurrent hget hinsert⟩

/-- A publication that raises leaves the store as it was. -/
theorem publishSource_error {error : Error}
    (h : (publishSource host snapshot candidates relations extractionVersion now clock db).2 = .error error) :
    (publishSource host snapshot candidates relations extractionVersion now clock db).1 = db := by
  rw [publishSource] at h ⊢
  cases hp : prepare host snapshot candidates relations extractionVersion with
  | error error => rfl
  | ok p =>
    rw [hp] at h
    exact inTransaction_error h

theorem publishSource_ok {result : PublishResult}
    (h : (publishSource host snapshot candidates relations extractionVersion now clock db).2 = .ok result) :
    ∃ p, prepare host snapshot candidates relations extractionVersion = .ok p ∧
      (∃ m, db.messages.get snapshot.storeId = some m ∧ snapshotFromRow host snapshot.storeId m = snapshot) ∧
      ∃ alreadyCurrent, result = p.result snapshot alreadyCurrent ∧
        Published host snapshot p now clock db
        (publishSource host snapshot candidates relations extractionVersion now clock db).1 alreadyCurrent := by
  rw [publishSource] at h ⊢
  cases hp : prepare host snapshot candidates relations extractionVersion with
  | error error =>
    rw [hp] at h
    cases h
  | ok p =>
    rw [hp] at h
    exact ⟨p, rfl, publishTransaction_ok (inTransaction_ok h)⟩

/-! ## The inserts -/

/-- What the inserts of a publication leave. -/
structure Inserted (key : Key) (receipt : Receipt) (db db' : Db) : Prop where
  messages : db'.messages = db.messages
  sources : ∀ k, db'.sources.get k = if k = key then some receipt else db.sources.get k
  assertions : ∀ id a, a.payload.key ≠ key → (db'.assertions.get id = some a ↔ db.assertions.get id = some a)

theorem enforce_ok {ok : Bool} {message : String} {u : Unit} (h : enforce ok message = .ok u) : ok = true := by
  rw [enforce] at h
  split at h
  · assumption
  · cases h

theorem insertReceipt_inserted {key : Key} {receipt : Receipt}
    (h : insertReceipt key receipt db = .ok db') : Inserted key receipt db db' := by
  rw [insertReceipt] at h
  obtain ⟨-, -, h⟩ := Fallible.bind_ok.mp h
  obtain ⟨-, -, h⟩ := Fallible.bind_ok.mp h
  obtain ⟨u, hunique, h⟩ := Fallible.bind_ok.mp h
  obtain rfl := Except.ok.inj h
  have hnone : db.sources.get key = none := by
    have hboth : (db.sources.get key).isNone ∧ (currentReceipt db key.storeId key.version).isNone := by
      simpa using enforce_ok hunique
    exact Option.isNone_iff_eq_none.mp hboth.1
  refine ⟨rfl, fun k => ?_, fun id a _ => Iff.rfl⟩
  simp only [KeyedTable.get_insert, hnone, and_true]

theorem insertAssertion_ok {row : AssertionRow} (h : insertAssertion clock db row = .ok db') :
    db'.messages = db.messages ∧ db'.sources = db.sources ∧
      ∀ id, db'.assertions.get id = if id = row.assertionId then
      some ⟨row.payload, clock row.assertionId⟩ else db.assertions.get id := by
  rw [insertAssertion] at h
  obtain ⟨-, -, h⟩ := Fallible.bind_ok.mp h
  obtain ⟨-, -, h⟩ := Fallible.bind_ok.mp h
  obtain ⟨u, hunique, h⟩ := Fallible.bind_ok.mp h
  obtain rfl := Except.ok.inj h
  have hnone : db.assertions.get row.assertionId = none := Option.isNone_iff_eq_none.mp (enforce_ok hunique)
  refine ⟨rfl, rfl, fun id => ?_⟩
  simp only [KeyedTable.get_insert, hnone, and_true]

theorem insertAssertion_inserted {key : Key} {receipt : Receipt} {mid : Db}
    (hmid : Inserted key receipt db mid) {row : AssertionRow}
    (hkey : row.payload.key = key) (h : insertAssertion clock mid row = .ok db') : Inserted key receipt db db' := by
  have hnone : mid.assertions.get row.assertionId = none := by
    rw [insertAssertion] at h
    obtain ⟨-, -, h⟩ := Fallible.bind_ok.mp h
    obtain ⟨-, -, h⟩ := Fallible.bind_ok.mp h
    obtain ⟨u, hunique, -⟩ := Fallible.bind_ok.mp h
    exact Option.isNone_iff_eq_none.mp (enforce_ok hunique)
  obtain ⟨hmessages, hsources, hassertions⟩ := insertAssertion_ok h
  refine ⟨hmessages.trans hmid.messages, fun k => hsources ▸ hmid.sources k, fun id a ha => ?_⟩
  rw [hassertions, ← hmid.assertions id a ha]
  split
  · -- the new row is under the key, and none was there before
    rename_i hid
    subst hid
    rw [hnone]
    refine iff_of_false (fun he => ?_) (fun he => by cases he)
    obtain rfl := Option.some.inj he
    exact ha hkey
  · rfl

theorem insertRelation_ok {row : RelationRow} (h : insertRelation clock db row = .ok db') :
    db'.messages = db.messages ∧ db'.sources = db.sources ∧ db'.assertions = db.assertions := by
  rw [insertRelation] at h
  obtain ⟨-, -, h⟩ := Fallible.bind_ok.mp h
  obtain ⟨-, -, h⟩ := Fallible.bind_ok.mp h
  obtain ⟨-, -, h⟩ := Fallible.bind_ok.mp h
  obtain ⟨-, -, h⟩ := Fallible.bind_ok.mp h
  obtain ⟨-, -, h⟩ := Fallible.bind_ok.mp h
  obtain rfl := Except.ok.inj h
  exact ⟨rfl, rfl, rfl⟩

theorem insertOutput_inserted (hkeys : ∀ row ∈ p.assertions, row.payload.key = snapshot.key p.version)
    (h : insertOutput snapshot p now clock db = .ok db') : Inserted (snapshot.key p.version)
    (p.receipt snapshot now) db db' := by
  rw [insertOutput] at h
  obtain ⟨first, hfirst, h⟩ := Fallible.bind_ok.mp h
  obtain ⟨second, hsecond, hthird⟩ := Fallible.bind_ok.mp h
  have hassertions : Inserted (snapshot.key p.version) (p.receipt snapshot now) db second :=
    Fallible.foldlM_invariant (P := Inserted (snapshot.key p.version) (p.receipt snapshot now) db)
      (fun row hrow mid mid' hmid hstep => insertAssertion_inserted hmid (hkeys row hrow) hstep)
        (insertReceipt_inserted hfirst) hsecond
  refine Fallible.foldlM_invariant (P := Inserted (snapshot.key p.version) (p.receipt snapshot now) db)
    (fun row _ mid mid' hmid hstep => ?_) hassertions hthird
  obtain ⟨hmessages, hsources, hsame⟩ := insertRelation_ok hstep
  exact ⟨hmessages.trans hmid.messages, fun k => hsources ▸ hmid.sources k,
    fun id a ha => hsame ▸ hmid.assertions id a ha⟩

end

/-! ## Marks and removals -/

theorem get_invalidateWhere (storeId : Int) (timestamp : Rat) (reason : Text) (db : Db) (key : Key) :
    (invalidateWhere storeId timestamp reason db).sources.get key = (db.sources.get key).map fun receipt =>
      if key.storeId = storeId ∧ receipt.invalidated.isNone then
      { receipt with invalidated := some (timestamp, reason) } else receipt := by
  rw [invalidateWhere, KeyedTable.get_updateAll]
  simp

/-- Which receipts a call of `remove_version` takes. -/
def Removes (key : Key) : Op → Prop
  | .remove extractionVersion => validatedVersion extractionVersion = .ok key.version
  | _ => False

theorem invalidateSource_cases (storeId : Int) (reason : Text) (invalidatedAt : Option Number) (now : Rat) (db : Db) :
    (invalidateSource storeId reason invalidatedAt now db).1 = db ∨
      ∃ timestamp reason', (invalidateSource storeId reason invalidatedAt now db).1 =
      invalidateWhere storeId timestamp reason' db := by
  rw [invalidateSource]
  split
  · exact .inl rfl
  · exact .inl rfl
  · simp only
    split
    · exact .inr ⟨_, _, rfl⟩
    · exact .inl rfl

theorem get_deleteReceipt (db : Db) (gone key : Key) :
    (deleteReceipt db gone).sources.get key = if key = gone then none else db.sources.get key := by
  rw [deleteReceipt, KeyedTable.get_delete]
  simp

theorem deleteReceipt_assertions {db : Db} {gone key : Key} (hne : key ≠ gone) (id : Text)
    (a : StoredAssertion) (ha : a.payload.key = key) :
    (deleteReceipt db gone).assertions.get id = some a ↔ db.assertions.get id = some a := by
  simp only [deleteReceipt, KeyedTable.get_delete]
  split
  · rename_i howned
    refine iff_of_false (fun h => by cases h) fun h => ?_
    rw [h, Option.any_some, decide_eq_true_eq] at howned
    exact hne (ha.symm.trans howned)
  · rfl

theorem foldl_deleteReceipt_messages (keys : List Key) (db : Db) :
    (keys.foldl deleteReceipt db).messages = db.messages := by
  induction keys generalizing db with
  | nil => rfl
  | cons gone keys ih => exact ih (deleteReceipt db gone)

/-- What the removal of other receipts leaves of a receipt and its rows. -/
theorem foldl_deleteReceipt {key : Key} : ∀ (keys : List Key), key ∉ keys → ∀ db : Db,
    (keys.foldl deleteReceipt db).sources.get key = db.sources.get key ∧
      ∀ id a, a.payload.key = key →
      ((keys.foldl deleteReceipt db).assertions.get id = some a ↔ db.assertions.get id = some a) := by
  intro keys
  induction keys with
  | nil => exact fun _ db => ⟨rfl, fun _ _ _ => Iff.rfl⟩
  | cons gone keys ih =>
    intro hkey db
    obtain ⟨hne, hrest⟩ := List.ne_and_not_mem_of_not_mem_cons hkey
    obtain ⟨hsources, hassertions⟩ := ih hrest (deleteReceipt db gone)
    refine ⟨?_, fun id a ha => ?_⟩
    · rw [List.foldl_cons, hsources, get_deleteReceipt, if_neg hne]
    · rw [List.foldl_cons, hassertions id a ha]
      exact deleteReceipt_assertions hne id a ha

theorem foldl_deleteReceipt_sources (keys : List Key) (db : Db) (key : Key) {receipt : Receipt}
    (h : (keys.foldl deleteReceipt db).sources.get key = some receipt) :
      db.sources.get key = some receipt ∧ key ∉ keys := by
  induction keys generalizing db with
  | nil => exact ⟨h, List.not_mem_nil⟩
  | cons gone keys ih =>
    obtain ⟨hget, hnot⟩ := ih (deleteReceipt db gone) h
    rw [get_deleteReceipt] at hget
    split at hget
    · cases hget
    · rename_i hne
      exact ⟨hget, List.not_mem_cons_of_ne_of_not_mem hne hnot⟩

end Assertion
