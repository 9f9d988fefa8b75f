import LcmX.EntityRebuild
import LcmX.EntityExclusive

/-!
# The key table

At most one row of a slot is active. An active derived row of an owner says what
the newest derived row of its slot says: an override leaves a shadow of it, and
an undo brings it up to date.
-/
namespace EntityStore

open ChangeLog Fallible Draft

/-! ## Tables of keys -/

structure KeyTables (s : Store) : Prop where
  ids : (s.keys.map KeyRow.keyId).Nodup
  below : ∀ r ∈ s.keys, r.keyId < s.nextKey
  active : ∀ a ∈ s.keys, ∀ b ∈ s.keys, a.retiredAt = none → b.retiredAt = none → a.slot = b.slot → a = b

theorem KeyTables.key_unique {s : Store} (h : KeyTables s) {a b : KeyRow} (ha : a ∈ s.keys) (hb : b ∈ s.keys)
    (hid : a.keyId = b.keyId) : a = b :=
  List.inj_on_of_nodup_map h.ids ha hb hid

theorem sameSources_iff {a b : List Int} : sameSources a b = true ↔ ∀ x, x ∈ a ↔ x ∈ b := by
  simp only [sameSources, Bool.and_eq_true, List.all_eq_true, decide_eq_true_eq]
  exact ⟨fun h x => ⟨h.1 x, h.2 x⟩, fun h => ⟨fun x => (h x).mp, fun x => (h x).mpr⟩⟩

theorem sameSources_refl (a : List Int) : sameSources a a = true := sameSources_iff.mpr fun _ => Iff.rfl

theorem sameSources_trans {a b c : List Int} (h : sameSources a b = true)
    (h' : sameSources b c = true) : sameSources a c = true :=
  sameSources_iff.mpr fun x => (sameSources_iff.mp h x).trans (sameSources_iff.mp h' x)

/-- One derivation up to the order of the sources. -/
def SameDerivation (a b : Derivation) : Prop := a.1 = b.1 ∧ sameSources a.2 b.2 = true

theorem SameDerivation.refl (a : Derivation) : SameDerivation a a := ⟨rfl, sameSources_refl _⟩

theorem SameDerivation.trans {a b c : Derivation} (h : SameDerivation a b)
    (h' : SameDerivation b c) : SameDerivation a c :=
  ⟨h.1.trans h'.1, sameSources_trans h.2 h'.2⟩

/-- A derived row of the owner's key. -/
def KeyRow.derives (r : KeyRow) (subject : String) (owner : EntityId) : Bool :=
  r.subjectKey = subject && r.ownerEntityId = some owner && r.method = .aliasMatch

theorem derives_iff {r : KeyRow} {subject : String} {owner : EntityId} :
    r.derives subject owner = true ↔ r.slot = (subject, some owner) ∧ r.method = .aliasMatch := by
  simp [KeyRow.derives, KeyRow.slot]

/-- The newest derivation of an owner's key, whether retired or not. -/
def newest (keys : List KeyRow) (subject : String) (owner : EntityId) : Option Derivation :=
  ((keys.filter (fun r => r.derives subject owner)).map KeyRow.derivation).getLast?

theorem newest_write (id : Nat) (v : Option Rat) (keys : List KeyRow) (subject : String) (owner : EntityId) :
    newest (keyColumn.write id v keys) subject owner = newest keys subject owner := by
  have hderives : (fun r : KeyRow => r.derives subject owner) ∘
    (fun r => if keyColumn.key r = id then keyColumn.set v r else r) =
      fun r => r.derives subject owner := by
    funext r
    rw [Function.comp_apply]
    split
    · rfl
    · rfl
  have hderivation : KeyRow.derivation ∘
      (fun r => if keyColumn.key r = id then keyColumn.set v r else r) = KeyRow.derivation := by
    funext r
    rw [Function.comp_apply]
    split
    · rfl
    · rfl
  unfold newest
  rw [Column.write, List.filter_map, List.map_map, hderives, hderivation]

theorem newest_append (keys : List KeyRow) (r : KeyRow) (subject : String) (owner : EntityId) :
    newest (keys ++ [r]) subject owner = if r.derives subject owner = true then some r.derivation
      else newest keys subject owner := by
  unfold newest
  rw [List.filter_append, List.map_append]
  by_cases h : r.derives subject owner = true
  · simp [h]
  · simp [h]

/-- Every active derived row of an owner is up to date. -/
def UpToDate (s : Store) : Prop := ∀ a ∈ s.keys, a.retiredAt = none → ∀ subject owner, a.derives subject owner = true →
  ∃ n, newest s.keys subject owner = some n ∧ SameDerivation n a.derivation

/-- The rows go on, in their slots. -/
def KeysGrow (s t : Store) : Prop := ∀ r ∈ s.keys, ∃ r' ∈ t.keys, r'.keyId = r.keyId ∧ r'.slot = r.slot

theorem KeysGrow.refl (s : Store) : KeysGrow s s := fun r hr => ⟨r, hr, rfl, rfl⟩

theorem KeysGrow.trans {a b c : Store} (h : KeysGrow a b) (h' : KeysGrow b c) : KeysGrow a c := by
  intro r hr
  obtain ⟨r', hr', hid, hslot⟩ := h r hr
  obtain ⟨r'', hr'', hid', hslot'⟩ := h' r' hr'
  exact ⟨r'', hr'', hid'.trans hid, hslot'.trans hslot⟩

/-! ## Writes of keys -/

variable {s s' : Store}

theorem keyConflict_false {k : KeyRow} (h : keyConflict s k = false) {b : KeyRow} (hb : b ∈ s.keys)
    (hnone : b.retiredAt = none)
    (hne : b.keyId ≠ k.keyId) : b.slot ≠ k.slot := by
  intro hslot
  rw [keyConflict, List.any_eq_false] at h
  have hsubject : b.subjectKey = k.subjectKey := (congrArg Prod.fst hslot :)
  have howner : b.ownerEntityId = k.ownerEntityId := (congrArg Prod.snd hslot :)
  exact h b hb (by simp [hnone, hne, hsubject, howner])

variable {row : KeyRow} {v : Option Rat} {id : Nat}

theorem setKeyRetired_ok (h : setKeyRetired row v s = .ok s') :
    (v = none → keyConflict s row = false) ∧ s' = { s with keys := keyColumn.write row.keyId v s.keys } := by
  unfold setKeyRetired at h
  split at h
  · cases h
  · rename_i hconflict
    cases h
    refine ⟨fun hv => ?_, rfl⟩
    simpa [hv] using hconflict

theorem insertKey_ok (h : insertKey row s = .ok s') : keyConflict s { row with keyId := s.nextKey } = false ∧
    s' = { s with keys := s.keys ++ [{ row with keyId := s.nextKey }], nextKey := s.nextKey + 1 } := by
  unfold insertKey at h
  split at h
  · cases h
  · rename_i hconflict
    cases h
    exact ⟨by simpa using hconflict, rfl⟩

theorem mem_writeKey {keys : List KeyRow} {r : KeyRow} : r ∈ keyColumn.write id v keys ↔
    (r ∈ keys ∧ r.keyId ≠ id) ∨ ∃ r0 ∈ keys, r0.keyId = id ∧ r = { r0 with retiredAt := v } :=
  Column.mem_write keyColumn

theorem writeKey_ids (id : Nat) (v : Option Rat) (keys : List KeyRow) :
    (keyColumn.write id v keys).map KeyRow.keyId = keys.map KeyRow.keyId :=
  Column.map_key_write keyColumn id v keys

theorem keysGrow_write (s : Store) (id : Nat) (v : Option Rat) :
    KeysGrow s { s with keys := keyColumn.write id v s.keys } := by
  intro r hr
  by_cases hid : r.keyId = id
  · exact ⟨{ r with retiredAt := v }, mem_writeKey.mpr (.inr ⟨r, hr, hid, rfl⟩), rfl, rfl⟩
  · exact ⟨r, mem_writeKey.mpr (.inl ⟨hr, hid⟩), rfl, rfl⟩

theorem keysGrow_append (s : Store) (r : KeyRow) (n : Nat) :
    KeysGrow s { s with keys := s.keys ++ [r], nextKey := n } :=
  fun r hr => ⟨r, List.mem_append_left _ hr, rfl, rfl⟩

/-- A row that is written stays alone in its slot. -/
theorem KeyTables.write (h : KeyTables s) (hrow : row ∈ s.keys)
    (hfree : v = none → keyConflict s row = false) :
      KeyTables { s with keys := keyColumn.write row.keyId v s.keys } := by
  have hcases : ∀ r ∈ keyColumn.write row.keyId v s.keys, r ∈ s.keys ∧ r.keyId ≠ row.keyId ∨
      r = { row with retiredAt := v } := by
    intro r hr
    rcases mem_writeKey.mp hr with hr | ⟨r0, hr0, hid, rfl⟩
    · exact .inl hr
    · rw [h.key_unique hr0 hrow hid]
      exact .inr rfl
  constructor
  · change ((keyColumn.write row.keyId v s.keys).map KeyRow.keyId).Nodup
    rw [writeKey_ids]
    exact h.ids
  · intro r hr
    rcases hcases r hr with ⟨hr, -⟩ | rfl
    · exact h.below r hr
    · exact h.below row hrow
  · intro a ha b hb hanone hbnone hslot
    rcases hcases a ha with ⟨ha, hane⟩ | rfl
    · rcases hcases b hb with ⟨hb, hbne⟩ | rfl
      · exact h.active a ha b hb hanone hbnone hslot
      · exact absurd hslot (keyConflict_false (hfree hbnone) ha hanone hane)
    · rcases hcases b hb with ⟨hb, hbne⟩ | rfl
      · exact absurd hslot.symm (keyConflict_false (hfree hanone) hb hbnone hbne)
      · rfl

/-- A new key row on a free slot keeps the tables. -/
theorem KeyTables.insert (h : KeyTables s) (hid : row.keyId = s.nextKey)
    (hfree : row.retiredAt = none → keyConflict s row = false) :
    KeyTables { s with keys := s.keys ++ [row], nextKey := s.nextKey + 1 } := by
  have hfresh : row.keyId ∉ s.keys.map KeyRow.keyId := by
    intro hin
    obtain ⟨r, hr, he⟩ := List.mem_map.mp hin
    have hlt := h.below r hr
    omega
  constructor
  · exact nodup_append_fresh h.ids hfresh
  · intro r hr
    rcases List.mem_append.mp hr with hr | hr
    · exact Nat.lt_succ_of_lt (h.below r hr)
    · rw [List.mem_singleton.mp hr, hid]
      exact Nat.lt_succ_self _
  · have hold : ∀ b ∈ s.keys, b.retiredAt = none → row.retiredAt = none → b.slot ≠ row.slot := by
      intro b hb hbnone hnone
      refine keyConflict_false (hfree hnone) hb hbnone ?_
      have hlt := h.below b hb
      omega
    intro a ha b hb hanone hbnone hslot
    rcases List.mem_append.mp ha with ha | ha
    · rcases List.mem_append.mp hb with hb | hb
      · exact h.active a ha b hb hanone hbnone hslot
      · rw [List.mem_singleton.mp hb] at hbnone hslot
        exact absurd hslot (hold a ha hanone hbnone)
    · rw [List.mem_singleton.mp ha] at hanone hslot ⊢
      rcases List.mem_append.mp hb with hb | hb
      · exact absurd hslot.symm (hold b hb hbnone hanone)
      · exact (List.mem_singleton.mp hb).symm

/-- A retired row need not be up to date. -/
theorem UpToDate.retire (h : UpToDate s) (id : Nat) (hv : v ≠ none) :
    UpToDate { s with keys := keyColumn.write id v s.keys } := by
  intro a ha hnone subject owner hderives
  rcases mem_writeKey.mp ha with ⟨ha, -⟩ | ⟨r, -, -, rfl⟩
  · obtain ⟨n, hn, hsame⟩ := h a ha hnone subject owner hderives
    exact ⟨n, (newest_write _ _ _ _ _).trans hn, hsame⟩
  · exact absurd hnone hv

/-- An active row that is added is the newest of its slot. -/
theorem UpToDate.insert (h : UpToDate s) (htables : KeyTables s) (hid : row.keyId = s.nextKey)
    (hfree : keyConflict s row = false) : UpToDate { s with keys := s.keys ++ [row], nextKey := s.nextKey + 1 } := by
  intro a ha hnone subject owner hderives
  change ∃ n, newest (s.keys ++ [row]) subject owner = some n ∧ _
  rw [newest_append]
  rcases List.mem_append.mp ha with ha | ha
  · have hne : ¬ row.derives subject owner = true := by
      intro hrow
      have hlt := htables.below a ha
      refine keyConflict_false hfree ha hnone (by omega) ?_
      rw [(derives_iff.mp hderives).1, (derives_iff.mp hrow).1]
    rw [if_neg hne]
    exact h a ha hnone subject owner hderives
  · rw [List.mem_singleton.mp ha] at hderives ⊢
    rw [if_pos hderives]
    exact ⟨_, rfl, .refl _⟩

/-! ## Drafts -/

/-- The key table of a draft that has only retired and added rows. -/
structure KeysKept (s : Store) (t : Store) : Prop where
  tables : KeyTables t
  upToDate : UpToDate t
  grows : KeysGrow s t

variable {c : Context} {d d' : Draft}

theorem projectKey_ok {v : Stamp} (h : projectKey c id v d = .ok d') : ∃ row ∈ d.store.keys, row.keyId = id ∧
    (stamp c d v = none → keyConflict d.store row = false) ∧
    d'.store = { d.store with keys := keyColumn.write id (stamp c d v) d.store.keys } ∧
    d'.payload.changes = d.payload.changes ++ [.key ⟨id, row.retiredAt, stamp c d v⟩] ∧
      d'.payload.override = d.payload.override := by
  simp only [projectKey, bind_ok] at h
  obtain ⟨row, hrow, t, ht, h⟩ := h
  obtain ⟨hfind, -⟩ := getRow_ok.mp hrow
  have hid : row.keyId = id := by simpa using List.find?_some hfind
  obtain ⟨hfree, rfl⟩ := setKeyRetired_ok ht
  cases h
  rw [hid]
  exact ⟨row, List.mem_of_find?_eq_some hfind, hid, hfree, rfl, rfl, rfl⟩

theorem newKey_ok (h : newKey row d = .ok d') :
    keyConflict d.store { row with keyId := d.store.nextKey } = false ∧
    d'.store =
      { d.store with keys := d.store.keys ++ [{ row with keyId := d.store.nextKey }], nextKey := d.store.nextKey + 1 } ∧
    d'.payload.changes = d.payload.changes ∧ d'.payload.override = d.payload.override := by
  rw [newKey, bind_ok] at h
  obtain ⟨t, ht, h⟩ := h
  obtain ⟨hfree, rfl⟩ := insertKey_ok ht
  cases h
  exact ⟨hfree, rfl, rfl, rfl⟩

theorem KeysKept.retire (h : KeysKept s d.store) (hrun : projectKey c id .now d = .ok d') : KeysKept s d'.store := by
  obtain ⟨row, hrow, rfl, -, hstore, -, -⟩ := projectKey_ok hrun
  rw [hstore]
  exact ⟨h.tables.write hrow (fun hv => by cases hv), h.upToDate.retire _ (by simp [stamp]),
    h.grows.trans (keysGrow_write _ _ _)⟩

theorem KeysKept.insert (h : KeysKept s d.store) (hrun : newKey row d = .ok d') : KeysKept s d'.store := by
  obtain ⟨hfree, hstore, -, -⟩ := newKey_ok hrun
  rw [hstore]
  exact ⟨h.tables.insert rfl (fun _ => hfree), h.upToDate.insert h.tables rfl hfree,
    h.grows.trans (keysGrow_append _ _ _)⟩

end EntityStore
