import LcmX.EntityKeyRuns

/-!
# The key table after an undo

An undo writes the keys of one slot back. When a row comes back that says less
than the newest derivation of the slot, a row with that derivation takes its place.
-/
namespace EntityStore

open ChangeLog Fallible Draft

variable {c : Context} {s t : Store} {d d' : Draft}

/-- Two rows that differ in their retirement. -/
def SameKey (a b : KeyRow) : Prop := keyColumn.set none a = keyColumn.set none b

theorem SameKey.facts {a b : KeyRow} (h : SameKey a b) : a.keyId = b.keyId ∧ a.slot = b.slot ∧ a.method = b.method ∧
    a.derivation = b.derivation := by
  have hid : a.keyId = b.keyId := (congrArg KeyRow.keyId h :)
  have hslot : a.slot = b.slot := (congrArg KeyRow.slot h :)
  have hmethod : a.method = b.method := (congrArg KeyRow.method h :)
  have hderivation : a.derivation = b.derivation := (congrArg KeyRow.derivation h :)
  exact ⟨hid, hslot, hmethod, hderivation⟩

theorem SameKey.derives {a b : KeyRow} (h : SameKey a b) (subject : String) (owner : EntityId) :
    a.derives subject owner = b.derives subject owner := by
  obtain ⟨-, hslot, hmethod, -⟩ := h.facts
  have hsubject : a.subjectKey = b.subjectKey := (congrArg Prod.fst hslot :)
  have howner : a.ownerEntityId = b.ownerEntityId := (congrArg Prod.snd hslot :)
  rw [KeyRow.derives, KeyRow.derives, hsubject, howner, hmethod]

/-- The keys while an undo writes them: the rows of the store, active when they were or when they
are among those to come back. -/
structure KeysWritten (s : Store) (back : Nat → Prop) (t : Store) : Prop where
  tables : KeyTables t
  grows : KeysGrow s t
  newest : ∀ subject owner, newest t.keys subject owner = newest s.keys subject owner
  active : ∀ a ∈ t.keys, ∃ a0 ∈ s.keys, SameKey a0 a ∧ (a.retiredAt = none → a0.retiredAt = none ∨ back a0.keyId)

variable {back : Nat → Prop}

theorem keysWritten_refl (h : KeyTables s) : KeysWritten s back s :=
  ⟨h, .refl s, fun _ _ => rfl, fun a ha => ⟨a, ha, rfl, fun hnone => .inl hnone⟩⟩

theorem KeysWritten.same (h : KeysWritten s back d.store) (hkeys : d'.store.keys = d.store.keys)
    (hnext : d'.store.nextKey = d.store.nextKey) : KeysWritten s back d'.store := by
  refine ⟨⟨?_, ?_, ?_⟩, ?_, ?_, ?_⟩
  · rw [hkeys]
    exact h.tables.ids
  · rw [hkeys, hnext]
    exact h.tables.below
  · rw [hkeys]
    exact h.tables.active
  · rw [KeysGrow, hkeys]
    exact h.grows
  · rw [hkeys]
    exact h.newest
  · rw [hkeys]
    exact h.active

variable {id : Nat} {changes : List FieldChange} {keys : List Nat} {subject : String}
  {owner : EntityId} {l : KeyRow}

theorem KeysWritten.project (h : KeysWritten s back d.store) {v : Stamp} (hback : stamp c d v = none → back id)
    (hrun : projectKey c id v d = .ok d') : KeysWritten s back d'.store := by
  obtain ⟨row, hrow, rfl, hfree, hstore, -, -⟩ := projectKey_ok hrun
  rw [hstore]
  refine ⟨h.tables.write hrow hfree, h.grows.trans (keysGrow_write _ _ _), fun subject owner => ?_, fun a ha => ?_⟩
  · exact (newest_write _ _ _ _ _).trans (h.newest subject owner)
  · rcases mem_writeKey.mp ha with ⟨ha, -⟩ | ⟨r, hr, hid, rfl⟩
    · exact h.active a ha
    · obtain ⟨a0, ha0, hsame, -⟩ := h.active r hr
      refine ⟨a0, ha0, hsame, fun hnone => .inr ?_⟩
      rw [hsame.facts.1, hid]
      exact hback hnone

theorem KeysWritten.restore (h : KeysWritten s back d.store) {ch : FieldChange}
    (hback : ∀ x, ch = .key x → x.before = none → back x.id) (hrun : EntityStore.restore c d ch = .ok d') :
    KeysWritten s back d'.store := by
  have hany : ¬ (⟨fun _ _ => True, fun _ _ _ => True, False⟩ : Writes).keys := fun hkeys => hkeys
  cases ch with
  | entity x =>
    have hacts : Acts c.env ⟨fun _ _ => True, fun _ _ _ => True, False⟩ d d' := projectEntity_acts trivial hrun
    obtain ⟨hkeys, hnext, -⟩ := hacts.keys_same hany
    exact h.same hkeys hnext
  | aliasRow x =>
    have hacts : Acts c.env ⟨fun _ _ => True, fun _ _ _ => True, False⟩ d d' :=
      projectAlias_acts (fun _ _ _ => trivial) hrun
    obtain ⟨hkeys, hnext, -⟩ := hacts.keys_same hany
    exact h.same hkeys hnext
  | note x =>
    have hacts : Acts c.env ⟨fun _ _ => True, fun _ _ _ => True, False⟩ d d' := projectNote_acts hrun
    obtain ⟨hkeys, hnext, -⟩ := hacts.keys_same hany
    exact h.same hkeys hnext
  | key x => exact KeysWritten.project (v := .value x.before) h (hback x rfl) hrun

/-- A key change that comes back. -/
def Restored (changes : List FieldChange) (id : Nat) : Prop :=
  ∃ ch, FieldChange.key ch ∈ changes ∧ ch.before = none ∧ ch.id = id

theorem inverse_written (h : KeyTables s) {created : Created}
    (hrun : inverse c created changes { store := s } = .ok d) : KeysWritten s (Restored changes) d.store := by
  simp only [inverse, bind_ok] at hrun
  obtain ⟨retired, hretired, mid, hmid, hrun⟩ := hrun
  have hfirst : KeysWritten s (Restored changes) retired.store := by
    refine foldlM_invariant (P := fun x : Draft => KeysWritten s (Restored changes) x.store) (fun _ _ _ _ ha hb => ?_)
      (keysWritten_refl (s := s) h) hretired
    have hacts : Acts c.env ⟨fun _ _ => True, fun _ _ _ => True, False⟩ _ _ :=
      projectAlias_acts (fun _ _ _ => trivial) hb
    obtain ⟨hkeys, hnext, -⟩ := hacts.keys_same (fun hkeys => hkeys)
    exact ha.same hkeys hnext
  have hsecond : KeysWritten s (Restored changes) mid.store :=
    foldlM_invariant (P := fun x : Draft => KeysWritten s (Restored changes) x.store)
      (fun _ _ _ _ ha hb => ha.project (fun hv => by cases hv) hb) hfirst hmid
  refine foldlM_invariant (P := fun x : Draft => KeysWritten s (Restored changes) x.store)
    (fun ch hch _ _ ha hb => ?_) hsecond hrun
  refine ha.restore (fun x hx hnone => ?_) hb
  subst hx
  exact ⟨x, mem_inverseOrder hch, hnone, rfl⟩

/-! ## What comes back -/

/-- A row that comes back cites what an active row of its slot cites. -/
theorem safeChanges_keys {env : Env} (changes : List FieldChange) : ∀ {kept : List FieldChange},
    safeChanges env s keys changes = .ok kept → ∀ ch, FieldChange.key ch ∈ kept → FieldChange.key ch ∈ changes ∧
      (ch.before = none → ∃ row ∈ s.keys, row.keyId = ch.id ∧ ∃ k ∈ s.keys, k.retiredAt = none ∧
      k.slot = row.slot ∧ k.sourceStoreIds ≠ []) := by
  induction changes with
  | nil =>
    intro kept h ch hch
    cases h
    cases hch
  | cons change changes ih =>
    intro kept h ch hch
    cases change with
    | key x =>
      simp only [safeChanges, bind_ok] at h
      obtain ⟨keep, hkeep, rest, hrest, h⟩ := h
      cases h
      by_cases hin : FieldChange.key ch ∈ rest
      · obtain ⟨hmem, hrow⟩ := ih hrest ch hin
        exact ⟨List.mem_cons_of_mem _ hmem, hrow⟩
      · cases keep with
        | false => exact absurd hch hin
        | true =>
          cases (List.mem_cons.mp hch).resolve_right hin
          refine ⟨List.mem_cons_self, fun hnone => ?_⟩
          rw [restorable, if_pos hnone, bind_ok] at hkeep
          obtain ⟨row, hrow, hkeep⟩ := hkeep
          obtain ⟨hfind, -⟩ := getRow_ok.mp hrow
          refine ⟨row, List.mem_of_find?_eq_some hfind, by simpa using List.find?_some hfind, ?_⟩
          dsimp only at hkeep
          split at hkeep
          · cases hkeep
          · rw [bind_ok] at hkeep
            obtain ⟨current, -, hkeep⟩ := hkeep
            have hcovered := Except.ok.inj hkeep
            rw [Bool.and_eq_true, decide_eq_true_eq, List.all_eq_true] at hcovered
            obtain ⟨x, hx⟩ := List.exists_mem_of_ne_nil _ hcovered.1
            have hany := hcovered.2 x hx
            rw [Bool.and_eq_true, List.any_eq_true] at hany
            obtain ⟨⟨k, hk, hcites⟩, -⟩ := hany
            rw [List.mem_filter] at hk
            rw [Bool.and_eq_true, decide_eq_true_eq, decide_eq_true_eq] at hcites
            obtain ⟨hactive, hslot⟩ := hk
            obtain ⟨hmem, hretired⟩ := List.mem_filter.mp hactive
            refine ⟨k, hmem, by simpa using hretired, by simpa [sameSlot, KeyRow.slot] using hslot, fun hnil => ?_⟩
            rw [hnil] at hcites
            cases hcites.2
    | entity x =>
      simp only [safeChanges, bind_ok] at h
      obtain ⟨rest, hrest, h⟩ := h
      cases h
      obtain ⟨hmem, hrow⟩ := ih hrest ch ((List.mem_cons.mp hch).resolve_left (by simp))
      exact ⟨List.mem_cons_of_mem _ hmem, hrow⟩
    | aliasRow x =>
      simp only [safeChanges, bind_ok] at h
      obtain ⟨rest, hrest, h⟩ := h
      cases h
      obtain ⟨hmem, hrow⟩ := ih hrest ch ((List.mem_cons.mp hch).resolve_left (by simp))
      exact ⟨List.mem_cons_of_mem _ hmem, hrow⟩
    | note x =>
      simp only [safeChanges, bind_ok] at h
      obtain ⟨rest, hrest, h⟩ := h
      cases h
      obtain ⟨hmem, hrow⟩ := ih hrest ch ((List.mem_cons.mp hch).resolve_left (by simp))
      exact ⟨List.mem_cons_of_mem _ hmem, hrow⟩

/-- A derived row of an owner that comes back has a newest derivation to be compared with. -/
theorem KeyInv.latest (h : KeyInv s) {e : Event} {p : Payload} (hok : UndoOk c id s e p)
    (hsafe : safeChanges c.env s keys p.changes = .ok changes) {r : KeyRow} (hr : r ∈ s.keys)
    (hback : Restored changes r.keyId) (hderives : r.derives subject owner = true) :
    ∃ l, derivation s p = some l ∧ (ownerAliasRows s subject owner).head? = some l := by
  obtain ⟨ch, hch, hnone, hid⟩ := hback
  obtain ⟨hmem, hcited⟩ := safeChanges_keys _ hsafe ch hch
  obtain ⟨o, ho, hglobal, r', hr', hr'id, hslot⟩ := h.logged e hok.mem hok.op p hok.payload ch hmem
  obtain rfl := h.tables.key_unique hr' hr (hr'id.trans hid)
  obtain ⟨hrslot, hmethod⟩ := derives_iff.mp hderives
  rw [hslot, Prod.mk.injEq] at hrslot
  obtain ⟨hsubject, howner⟩ := hrslot
  have hne : ownerAliasRows s subject owner ≠ [] := by
    obtain ⟨row, hrow, hrowid, k, hk, hknone, hkslot, hksources⟩ := hcited hnone
    obtain rfl := h.tables.key_unique hrow hr' (hrowid.trans hid)
    rw [(derives_iff.mp hderives).1] at hkslot
    cases hkmethod : k.method with
    | aliasMatch =>
      exact List.ne_nil_of_mem (mem_ownerAliasRows.mpr ⟨hk, derives_iff.mpr ⟨hkslot, hkmethod⟩, .inl hknone⟩)
    | override =>
      have hshadowed := shadowed_iff.mpr ⟨k, hk, hkslot, hkmethod, hknone, hksources⟩
      exact List.ne_nil_of_mem (mem_ownerAliasRows.mpr ⟨hr', hderives, .inr hshadowed⟩)
  obtain ⟨l, hl⟩ := Option.isSome_iff_exists.mp (List.isSome_head?.mpr hne)
  refine ⟨l, ?_, hl⟩
  rw [derivation, ho]
  dsimp only
  rw [if_pos hglobal, howner, Option.bind_some, hsubject, hl]

/-! ## The refresh -/

/-- The rows that are still to be replaced are the only ones out of date. -/
structure Refreshing (l : KeyRow) (subject : String) (owner : EntityId) (rest : List KeyRow) (t : Store) : Prop where
  tables : KeyTables t
  newest : ∃ n, newest t.keys subject owner = some n ∧ SameDerivation n l.derivation
  rows : ∀ a ∈ t.keys, a.retiredAt = none → ∀ subject' owner', a.derives subject' owner' = true →
    (∃ n, EntityStore.newest t.keys subject' owner' = some n ∧ SameDerivation n a.derivation) ∨
      ∃ r ∈ rest, r.keyId = a.keyId

/-- Refreshing one row leaves the rest to refresh. -/
theorem Refreshing.next {r : KeyRow} {rest : List KeyRow} (hl : l.derives subject owner = true)
    (h : Refreshing l subject owner (r :: rest) d.store) (hrun : refreshRow c l d r = .ok d') :
    Refreshing l subject owner rest d'.store := by
  rw [refreshRow, bind_ok] at hrun
  obtain ⟨mid, hmid, hrun⟩ := hrun
  obtain ⟨row, hrow, hid, -, hmidStore, -, -⟩ := projectKey_ok hmid
  obtain ⟨hfree, hstore, -, -⟩ := newKey_ok hrun
  have hmidTables : KeyTables mid.store := by
    rw [hmidStore, ← hid]
    exact h.tables.write hrow (fun hv => by cases hv)
  have hnew : ({ l with retiredAt := none, keyId := mid.store.nextKey } : KeyRow).derives subject owner = true := hl
  have hslot := (derives_iff.mp hl).1
  rw [hstore]
  refine ⟨hmidTables.insert rfl (fun _ => hfree), ?_, ?_⟩
  · refine ⟨_, ?_, SameDerivation.refl _⟩
    change EntityStore.newest (mid.store.keys ++ [_]) subject owner = _
    rw [newest_append, if_pos hnew]
    rfl
  · intro a ha hnone subject' owner' hderives
    change (∃ n, EntityStore.newest (mid.store.keys ++ [_]) subject' owner' = some n ∧ _) ∨ _
    rw [newest_append]
    rcases List.mem_append.mp ha with ha | ha
    · have hlt := hmidTables.below a ha
      have hne : ¬ (subject', owner') = (subject, owner) := by
        intro he
        refine keyConflict_false hfree ha hnone (by dsimp only; omega) ?_
        rw [(derives_iff.mp hderives).1]
        cases he
        exact hslot.symm
      have hnot : ¬ ({ l with retiredAt := none, keyId := mid.store.nextKey } : KeyRow).derives
          subject' owner' = true := by
        intro hother
        have hother' := (derives_iff.mp hother).1
        change l.slot = _ at hother'
        rw [hslot] at hother'
        cases hother'
        exact hne rfl
      rw [if_neg hnot]
      rw [hmidStore] at ha ⊢
      change (∃ n, EntityStore.newest (keyColumn.write r.keyId (stamp c d .now) d.store.keys)
        subject' owner' = some n ∧ _) ∨ _
      rw [newest_write]
      rcases mem_writeKey.mp ha with ⟨ha, hane⟩ | ⟨r0, -, -, rfl⟩
      · refine (h.rows a ha hnone subject' owner' hderives).imp_right ?_
        rintro ⟨r', hr', hr'id⟩
        cases List.mem_cons.mp hr' with
        | inl he => exact absurd (he ▸ hr'id).symm hane
        | inr hr' => exact ⟨r', hr', hr'id⟩
      · cases hnone
    · rw [List.mem_singleton.mp ha] at hderives ⊢
      rw [if_pos hderives]
      exact .inl ⟨_, rfl, .refl _⟩

theorem Refreshing.loop (hl : l.derives subject owner = true) (rest : List KeyRow) :
    ∀ {d d' : Draft}, Refreshing l subject owner rest d.store → rest.foldlM (refreshRow c l) d = .ok d' →
      Refreshing l subject owner [] d'.store := by
  induction rest with
  | nil =>
    intro d d' h hrun
    cases hrun
    exact h
  | cons r rest ih =>
    intro d d' h hrun
    rw [List.foldlM_cons, bind_ok] at hrun
    obtain ⟨mid, hmid, hrun⟩ := hrun
    exact ih (h.next hl hmid) hrun

theorem Refreshing.upToDate (h : Refreshing l subject owner [] t) : UpToDate t := by
  intro a ha hnone subject' owner' hderives
  refine (h.rows a ha hnone subject' owner' hderives).resolve_right ?_
  rintro ⟨r, hr, -⟩
  cases hr

/-! ## An undo keeps the invariant -/

theorem refreshRow_grows {r : KeyRow} (h : KeysGrow s d.store) (hrun : refreshRow c l d r = .ok d') :
    KeysGrow s d'.store := by
  rw [refreshRow, bind_ok] at hrun
  obtain ⟨mid, hmid, hrun⟩ := hrun
  obtain ⟨row, -, -, -, hmidStore, -, -⟩ := projectKey_ok hmid
  obtain ⟨-, hstore, -, -⟩ := newKey_ok hrun
  rw [hstore]
  refine KeysGrow.trans ?_ (keysGrow_append _ _ _)
  rw [hmidStore]
  exact h.trans (keysGrow_write _ _ _)

/-- A row of the store that was active before stays up to date. -/
theorem KeysWritten.unchanged (h : KeysWritten s back t) (hup : UpToDate s) {a a0 : KeyRow}
    (ha0 : a0 ∈ s.keys) (hsame : SameKey a0 a)
    (hnone : a0.retiredAt = none) (hderives : a.derives subject owner = true) :
    ∃ n, EntityStore.newest t.keys subject owner = some n ∧ SameDerivation n a.derivation := by
  obtain ⟨n, hn, hder⟩ := hup a0 ha0 hnone subject owner (by rw [hsame.derives, hderives])
  rw [h.newest, ← hsame.facts.2.2.2]
  exact ⟨n, hn, hder⟩

/-- The body of an undo keeps the key rows. -/
theorem KeyInv.undoBody (h : KeyInv s) {e : Event} {p : Payload} (hok : UndoOk c id s e p)
    (hsafe : safeChanges c.env s keys p.changes = .ok changes)
    (hbody : EntityStore.undoBody c (derivation s p) { p.created with keys := keys } changes s = .ok d) :
      KeysKept s d.store := by
  rw [EntityStore.undoBody, bind_ok] at hbody
  obtain ⟨inverted, hinverted, hbody⟩ := hbody
  have hwritten := inverse_written h.tables hinverted
  cases hlatest : derivation s p with
  | none =>
    rw [hlatest] at hbody
    cases hbody
    refine ⟨hwritten.tables, fun a ha hnone subject owner hderives => ?_, hwritten.grows⟩
    obtain ⟨a0, ha0, hsame, hstate⟩ := hwritten.active a ha
    rcases hstate hnone with hnone0 | hback
    · exact hwritten.unchanged h.upToDate ha0 hsame hnone0 hderives
    · obtain ⟨l, hl, -⟩ := h.latest hok hsafe ha0 hback (by rw [hsame.derives, hderives])
      rw [hlatest] at hl
      cases hl
  | some l =>
    rw [hlatest, refresh] at hbody
    obtain ⟨o, howner⟩ : ∃ subject, ∃ owner, (ownerAliasRows s subject owner).head? = some l := by
      unfold derivation at hlatest
      split at hlatest
      · rename_i o _
        split at hlatest
        · cases hown : o.ownerEntityId with
          | none =>
            rw [hown] at hlatest
            cases hlatest
          | some owner =>
            rw [hown, Option.bind_some] at hlatest
            exact ⟨_, _, hlatest⟩
        · cases hlatest
      · cases hlatest
    obtain ⟨owner, hhead⟩ := howner
    obtain ⟨hl, n, hn, hnl⟩ := h.upToDate.head hhead
    have hslot := (derives_iff.mp hl).1
    have hstart : Refreshing l o owner
      ((activeKeys inverted.store).filter (fun r => sameSlot l.subjectKey l.ownerEntityId r &&
        r.method = .aliasMatch && (r.entityId ≠ l.entityId || r.sourceStoreIds ≠ l.sourceStoreIds)))
          inverted.store := by
      refine ⟨hwritten.tables, ⟨n, (hwritten.newest _ _).trans hn, hnl⟩, fun a ha hnone subject' owner' hderives => ?_⟩
      obtain ⟨a0, ha0, hsame, hstate⟩ := hwritten.active a ha
      rcases hstate hnone with hnone0 | hback
      · exact .inl (hwritten.unchanged h.upToDate ha0 hsame hnone0 hderives)
      · -- The row came back to the slot of the newest derivation.
        obtain ⟨l', hl', hhead'⟩ := h.latest hok hsafe ha0 hback (by rw [hsame.derives, hderives])
        rw [hlatest] at hl'
        cases hl'
        have hslot' := (derives_iff.mp (h.upToDate.head hhead').1).1
        rw [hslot] at hslot'
        cases hslot'
        by_cases hder : a.derivation = l.derivation
        · left
          rw [hder]
          exact ⟨n, (hwritten.newest _ _).trans hn, hnl⟩
        · right
          refine ⟨a, List.mem_filter.mpr ⟨List.mem_filter.mpr ⟨ha, by simpa using hnone⟩, ?_⟩, rfl⟩
          obtain ⟨haslot, hmethod⟩ := derives_iff.mp hderives
          have hsubject : a.subjectKey = l.subjectKey := (congrArg Prod.fst (haslot.trans hslot.symm) :)
          have howner : a.ownerEntityId = l.ownerEntityId := (congrArg Prod.snd (haslot.trans hslot.symm) :)
          rw [KeyRow.derivation, KeyRow.derivation, Prod.mk.injEq, not_and_or] at hder
          simpa [sameSlot, hsubject, howner, hmethod] using hder
    refine ⟨(hstart.loop hl _ hbody).tables, (hstart.loop hl _ hbody).upToDate, ?_⟩
    exact foldlM_invariant (P := fun x : Draft => KeysGrow s x.store)
      (fun _ _ _ _ ha hb => refreshRow_grows ha hb) hwritten.grows hbody

theorem KeyInv.undo (h : KeyInv s) (hs : Tables s) {s' : Store}
    (hrun : EntityStore.undo c id s = .ok s') : KeyInv s' := by
  obtain ⟨e, p, keys, changes, d, hok, hsafe, hbody, rfl⟩ := undo_ok hrun
  have hkept := h.undoBody hok hsafe hbody
  have hevents := ((undoBody_acts hbody).derived hs).events
  refine ⟨⟨hkept.tables.ids, hkept.tables.below, hkept.tables.active⟩, hkept.upToDate, ?_⟩
  intro x hx hop q hq
  rcases List.mem_append.mp hx with hx | hx
  · rw [hevents] at hx
    exact (h.logged x hx hop q hq).grow hkept.grows
  · cases List.mem_singleton.mp hx
    exact absurd rfl hop

/-- A call keeps the key table. -/
theorem KeyInv.call (h : KeyInv s) (hs : Reachable s) (c : Context) (op : Op) : KeyInv (step c s op).1 := by
  have htables := hs.wellFormed.tables
  have hplain : ∀ {d : Draft} {w : Writes} {name : OpName}, ¬ w.keys → Acts c.env w { store := s } d →
      KeyInv (appendEvent name d.payload none d.store) := by
    intro d w name hw hacts
    obtain ⟨hkeys, hnext, hlog⟩ := hacts.keys_same hw
    exact h.commit (KeysKept.same (d := { store := s }) h.kept hkeys hnext)
      (hacts.derived htables).events name fun ch hch => by cases hlog ch hch
  unfold step
  split
  · rename_i s' returned hrun
    cases hop : op with
    | overrideKey subject entity scope owner =>
      rw [hop] at hrun
      obtain ⟨d, hd, rfl⟩ := logged_ok hrun
      obtain ⟨hkept, hlogged⟩ := overrideKey_kept h hd
      have hacts : Acts c.env keyWrites { store := s } d := overrideKey_acts trivial hd
      exact h.commit hkept (hacts.derived htables).events _ hlogged
    | _ =>
      cases execute_committed htables hrun with
      | plain hname hacts => exact hplain (fun hkeys => hkeys) hacts
      | merge hm => exact hplain (w := calmWrites s) (fun hkeys => hkeys) (merge_acts (fun _ _ => trivial) hm)
      | undo hu => exact h.undo htables hu
      | attached ha => exact h
      | overrideKey hacts => cases hop
  · exact h

theorem keyInv_empty (nextAlias nextKey nextEvent : Nat) : KeyInv (emptyScope nextAlias nextKey nextEvent) := by
  refine ⟨⟨List.nodup_nil, ?_, ?_⟩, ?_, ?_⟩
  · exact fun r hr => by cases hr
  · exact fun a ha => by cases ha
  · exact fun a ha => by cases ha
  · exact fun e he => by cases he

end EntityStore
