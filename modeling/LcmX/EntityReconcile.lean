import LcmX.EntityKeyUndo

/-!
# The loops of a rebuild

The loop over the overrides only adds retired rows. The loop over the active
rows keeps those that fit, and the last loop adds what is then still wanted.
-/
namespace EntityStore

open ChangeLog Fallible Rebuilding

variable {b : Basis} (now : Nat → Rat) {s t : Store}

/-! ## Rows that are held -/

theorem slot_filter {keys : List KeyRow} {slot : Slot} {r : KeyRow} : r ∈ keys.filter (sameSlot slot.1 slot.2) ↔
    r ∈ keys ∧ r.slot = slot := by
  obtain ⟨subject, owner⟩ := slot
  simp [List.mem_filter, sameSlot, KeyRow.slot]

theorem mem_activeKeys {r : KeyRow} : r ∈ activeKeys s ↔ r ∈ s.keys ∧ r.retiredAt = none := by
  simp [activeKeys]

theorem KeyTables.nodup (h : KeyTables s) : s.keys.Nodup := List.Nodup.of_map _ h.ids

/-- At most one row of a slot is active. -/
theorem KeyTables.held (h : KeyTables s) (slot : Slot) : (activeKeys s).filter (sameSlot slot.1 slot.2) = [] ∨
    ∃ r, (activeKeys s).filter (sameSlot slot.1 slot.2) = [r] ∧ r ∈ s.keys ∧ r.retiredAt = none ∧ r.slot = slot := by
  have hnodup : ((activeKeys s).filter (sameSlot slot.1 slot.2)).Nodup := (h.nodup.filter _).filter _
  have hmem : ∀ r ∈ (activeKeys s).filter (sameSlot slot.1 slot.2), r ∈ s.keys ∧
      r.retiredAt = none ∧ r.slot = slot := by
    intro r hr
    obtain ⟨hactive, hslot⟩ := slot_filter.mp hr
    obtain ⟨hkeys, hnone⟩ := mem_activeKeys.mp hactive
    exact ⟨hkeys, hnone, hslot⟩
  generalize (activeKeys s).filter (sameSlot slot.1 slot.2) = held at hnodup hmem
  match held with
  | [] => exact .inl rfl
  | [r] => exact .inr ⟨r, rfl, hmem r List.mem_cons_self⟩
  | r :: r' :: rest =>
    obtain ⟨hr, hrnone, hrslot⟩ := hmem r List.mem_cons_self
    obtain ⟨hr', hrnone', hrslot'⟩ := hmem r' (List.mem_cons_of_mem _ List.mem_cons_self)
    have hsame := h.active r hr r' hr' hrnone hrnone' (hrslot.trans hrslot'.symm)
    rw [List.nodup_cons] at hnodup
    exact absurd (hsame ▸ List.mem_cons_self) hnodup.1

theorem keyConflict_free {k : KeyRow} (h : ∀ r ∈ s.keys, r.retiredAt = none → r.slot = k.slot → r.keyId = k.keyId) :
    keyConflict s k = false := by
  rw [keyConflict, List.any_eq_false]
  intro r hr hconflict
  simp only [Bool.and_eq_true, decide_eq_true_eq] at hconflict
  obtain ⟨⟨⟨hnone, hne⟩, hsubject⟩, howner⟩ := hconflict
  exact hne (h r hr hnone (by rw [KeyRow.slot, KeyRow.slot, hsubject, howner]))

theorem setKeyRetired_some (row : KeyRow) (x : Rat) (s : Store) :
    setKeyRetired row (some x) s = .ok { s with keys := keyColumn.write row.keyId (some x) s.keys } := by
  rw [setKeyRetired, if_neg (by simp)]

variable {row : KeyRow} {done : List Override} {o : Override}

theorem setKeyRetired_free (h : keyConflict s row = false) :
    setKeyRetired row none s = .ok { s with keys := keyColumn.write row.keyId none s.keys } := by
  rw [setKeyRetired, if_neg (by simp [h])]

/-- The store with one more key row. -/
def withKey (s : Store) (row : KeyRow) : Store := { s with keys := s.keys ++ [row], nextKey := s.nextKey + 1 }

theorem insertKey_free (hid : row.keyId = s.nextKey) (h : keyConflict s row = false) :
    insertKey row s = .ok (withKey s row) := by
  obtain ⟨keyId, subjectKey, owner, entityId, method, sources, retiredAt⟩ := row
  cases hid
  rw [insertKey, if_neg (by simp [h])]
  rfl

theorem retire_ok (st : Rebuilding) (row : KeyRow) : retire now st row = .ok { st with
    store := { st.store with keys := keyColumn.write row.keyId (some (now st.ticks)) st.store.keys }
    ticks := st.ticks + 1 } := by
  rw [retire, setKeyRetired_some]
  rfl

theorem write_last {keys : List KeyRow} (h : row.keyId ∉ keys.map KeyRow.keyId) (v : Option Rat) :
    keyColumn.write row.keyId v (keys ++ [row]) = keys ++ [{ row with retiredAt := v }] := by
  rw [Column.write_append, Column.write_of_not_mem keyColumn h]
  simp [Column.write, keyColumn]

/-- A shadow is one retired row: the held row is back as it was. -/
theorem shadow_total {st : Rebuilding} (h : KeyTables st.store) (slot : Slot) (w : Derivation) : ∃ x n ticks, 0 < n ∧
    shadow now slot w st = .ok { st with
      store := withKey st.store { wantedRow slot ⟨w.1, .aliasMatch, w.2⟩ st.store.nextKey with retiredAt := some x }
      writes := st.writes + n
      ticks := ticks } := by
  have hnotin : st.store.nextKey ∉ st.store.keys.map KeyRow.keyId := by
    intro hin
    obtain ⟨r, hr, hid⟩ := List.mem_map.mp hin
    have hlt := h.below r hr
    omega
  generalize hrow : wantedRow slot ⟨w.1, .aliasMatch, w.2⟩ st.store.nextKey = row
  have hid : row.keyId = st.store.nextKey := by rw [← hrow]; rfl
  have hrowSlot : row.slot = slot := by rw [← hrow]; rfl
  rw [← hid] at hnotin
  rcases h.held slot with hnil | ⟨r, hone, hr, hnone, hslot⟩
  · have hfree : keyConflict st.store row = false := by
      refine keyConflict_free fun r hr hnone hslot => ?_
      have hin := slot_filter.mpr ⟨mem_activeKeys.mpr ⟨hr, hnone⟩, hslot.trans hrowSlot⟩
      rw [hnil] at hin
      cases hin
    refine ⟨now st.ticks, 2, st.ticks + 1, by decide, ?_⟩
    rw [shadow, hnil, List.foldlM_nil, pure_bind]
    dsimp only
    rw [hrow, bind_of_ok (insertKey_free hid hfree), bind_of_ok (retire_ok now _ _),
      List.foldlM_nil, pure_bind, withKey]
    dsimp only
    rw [write_last hnotin]
    rfl
  · have hkeep : ∀ b ∈ st.store.keys, b.retiredAt = none → b.slot = slot → b = r :=
      fun b hb hbnone hbslot => h.active b hb r hr hbnone hnone (hbslot.trans hslot.symm)
    have hne : r.keyId ≠ row.keyId := by
      have hlt := h.below r hr
      omega
    -- Without the held row the slot is free, and with the shadow it is free for the held row.
    have hfree : keyConflict
        { st.store with keys := keyColumn.write r.keyId (some (now st.ticks)) st.store.keys } row = false := by
      refine keyConflict_free fun b hb hbnone hbslot => ?_
      rcases mem_writeKey.mp hb with ⟨hb, hbne⟩ | ⟨_, -, -, rfl⟩
      · exact absurd (congrArg KeyRow.keyId (hkeep b hb hbnone (hbslot.trans hrowSlot))) hbne
      · cases hbnone
    have hback : keyConflict { st.store with
        keys := keyColumn.write r.keyId (some (now st.ticks)) st.store.keys ++
          [{ row with retiredAt := some (now (st.ticks + 1)) }]
        nextKey := st.store.nextKey + 1 } r = false := by
      refine keyConflict_free fun b hb hbnone hbslot => ?_
      rcases List.mem_append.mp hb with hb | hb
      · rcases mem_writeKey.mp hb with ⟨hb, -⟩ | ⟨_, -, -, rfl⟩
        · exact congrArg KeyRow.keyId (hkeep b hb hbnone (hbslot.trans hslot))
        · cases hbnone
      · rw [List.mem_singleton.mp hb] at hbnone
        cases hbnone
    have hinsert : insertKey row { st.store with keys := keyColumn.write r.keyId (some (now st.ticks)) st.store.keys } =
        .ok (withKey { st.store with keys := keyColumn.write r.keyId (some (now st.ticks)) st.store.keys } row) :=
      insertKey_free hid hfree
    have hwritten : row.keyId ∉ (keyColumn.write r.keyId (some (now st.ticks)) st.store.keys).map KeyRow.keyId := by
      rw [writeKey_ids]
      exact hnotin
    have hkeys : keyColumn.write r.keyId none (keyColumn.write r.keyId (some (now st.ticks)) st.store.keys ++
        [{ row with retiredAt := some (now (st.ticks + 1)) }]) = st.store.keys ++
          [{ row with retiredAt := some (now (st.ticks + 1)) }] := by
      rw [Column.write_append, Column.write_back keyColumn
        (fun b hb hbid => by rw [h.key_unique hb hr hbid]; exact hnone)]
      rw [Column.write_of_not_mem keyColumn]
      intro hin
      exact hne (List.mem_singleton.mp hin)
    refine ⟨now (st.ticks + 1), 4, st.ticks + 2, by decide, ?_⟩
    rw [shadow, hone, List.foldlM_cons, bind_of_ok (retire_ok now _ _), List.foldlM_nil, pure_bind]
    dsimp only
    rw [hrow, bind_of_ok hinsert, bind_of_ok (retire_ok now _ _), withKey]
    dsimp only
    rw [write_last hwritten, List.foldlM_cons, bind_of_ok (setKeyRetired_free hback), List.foldlM_nil, pure_bind]
    dsimp only
    rw [hkeys]
    rfl

/-! ## What is hidden -/

theorem sameSources_sorted (l : List Int) : sameSources (sortedSources l) l = true := by
  refine sameSources_iff.mpr fun x => ?_
  rw [sortedSources, List.mem_insertionSort, List.mem_eraseDups]

theorem derivedAs_iff {r : KeyRow} {w : Derivation} : r.derivedAs w = true ↔ SameDerivation r.derivation w := by
  simp [KeyRow.derivedAs, SameDerivation, KeyRow.derivation]

theorem newest_some {keys : List KeyRow} {subject : String} {owner : EntityId} {n : Derivation}
    (h : newest keys subject owner = some n) :
    ∃ r ∈ keys, r.derives subject owner = true := by
  obtain ⟨r, hr, -⟩ := List.mem_map.mp (List.mem_of_getLast? h)
  exact ⟨r, List.mem_filter.mp hr⟩

/-- Derivations that say the same hide the same. -/
theorem hidden_same {n a w : Derivation} {subject : String} {owner : EntityId} (h : SameDerivation n a)
    (hw : b.hidden (some n) subject owner = some w) :
      ∃ w', b.hidden (some a) subject owner = some w' ∧ SameDerivation w' w := by
  unfold Basis.hidden at hw ⊢
  split at hw
  · exact ⟨w, hw, .refl w⟩
  · cases hw
    exact ⟨_, rfl, h.1.symm, sameSources_refl _⟩

/-- What is hidden where a row has come that says what was hidden. -/
theorem hidden_again {prior : Option Derivation} {n w w' : Derivation} {subject : String} {owner : EntityId}
    (hw : b.hidden prior subject owner = some w) (hn : n.1 = w.1)
    (hw' : b.hidden (some n) subject owner = some w') : w' = w := by
  unfold Basis.hidden at hw hw'
  split at hw
  · rename_i entry hentry
    rw [hentry] at hw'
    cases hw
    cases hw'
    rfl
  · rename_i hentry
    rw [hentry] at hw'
    cases prior with
    | none => cases hw
    | some p =>
      cases hw
      cases hw'
      exact Prod.ext hn rfl

/-- The newest derived row says what an override of the slot hides. -/
def Told (b : Basis) (t : Store) (subject : String) (owner : EntityId) : Prop := ∀ w,
  b.hidden (newest t.keys subject owner) subject owner = some w →
    ∃ n, newest t.keys subject owner = some n ∧ SameDerivation n w

/-! ## The loop over the overrides -/

/-- Nothing where the first derived row says what is hidden, else a shadow. -/
inductive Keeps (b : Basis) (subject : String) (owner : EntityId) (st st' : Rebuilding) : Prop
  | same (hsame : st' = st)
      (hfits : ∀ w, b.hidden ((ownerAliasRows st.store subject owner).head?.map KeyRow.derivation)
        subject owner = some w →
        ∃ r, (ownerAliasRows st.store subject owner).head? = some r ∧ SameDerivation r.derivation w)
  | shadow {w : Derivation} {x : Rat}
      (hhidden : b.hidden ((ownerAliasRows st.store subject owner).head?.map KeyRow.derivation) subject owner = some w)
      (hstale : ∀ r, (ownerAliasRows st.store subject owner).head? = some r → ¬ SameDerivation r.derivation w)
      (hstore : st'.store = withKey st.store
        { wantedRow (subject, some owner) ⟨w.1, .aliasMatch, w.2⟩ st.store.nextKey with retiredAt := some x })
      (hdesired : st'.desired = st.desired) (hwrites : st.writes < st'.writes)

theorem option_any {α : Type} {x : Option α} {p : α → Bool} : x.any p = true ↔ ∃ a, x = some a ∧ p a = true := by
  cases x with
  | none => simp
  | some a => simp

theorem keepDerivation_total {st : Rebuilding} (h : KeyTables st.store) (subject : String) (owner : EntityId) :
    ∃ st', keepDerivation b now subject owner st = .ok st' ∧ Keeps b subject owner st st' := by
  unfold keepDerivation
  dsimp only
  split
  · rename_i hnone
    refine ⟨st, rfl, .same rfl fun w hw => ?_⟩
    rw [hnone] at hw
    cases hw
  · rename_i w hw
    split
    · rename_i hany
      obtain ⟨r, hr, hfits⟩ := option_any.mp hany
      refine ⟨st, rfl, .same rfl fun w' hw' => ⟨r, hr, ?_⟩⟩
      rw [hw] at hw'
      cases hw'
      exact derivedAs_iff.mp hfits
    · rename_i hany
      obtain ⟨x, n, ticks, hn, hrun⟩ := shadow_total now h (subject, some owner) w
      refine ⟨_, hrun, .shadow hw (fun r hr hsame => hany ?_) rfl rfl (Nat.lt_add_of_pos_right hn)⟩
      exact option_any.mpr ⟨r, hr, derivedAs_iff.mpr hsame⟩

/-- What the aliases and these overrides ask for. -/
def Basis.wanted (b : Basis) (os : List Override) : KeyedTable Slot Wanted :=
  os.foldl (fun desired o => match b.overrideWanted o with
    | none => desired
    | some w => desired.assign (o.subjectKey, o.ownerEntityId) w) b.aliasDesired

/-- An override that is asked for in the slot of an owner. -/
def Overridden (b : Basis) (os : List Override) (subject : String) (owner : EntityId) : Prop :=
  ∃ o ∈ os, b.overrideWanted o ≠ none ∧ o.subjectKey = subject ∧ o.ownerEntityId = some owner

/-- The loop over the overrides: retired rows are added, in the slots of overrides. -/
structure Shadowing (b : Basis) (s : Store) (done : List Override) (st : Rebuilding) : Prop where
  tables : KeyTables st.store
  store : st.store = { s with keys := st.store.keys, nextKey := st.store.nextKey }
  active : activeKeys st.store = activeKeys s
  grows : KeysGrow s st.store
  desired : st.desired = b.wanted done
  newest : ∀ subject owner, ¬ Overridden b done subject owner →
    EntityStore.newest st.store.keys subject owner = EntityStore.newest s.keys subject owner
  untouched : ∀ subject owner, b.aliasDesired.get (subject, some owner) = none → ownerAliasRows s subject owner = [] →
    EntityStore.newest st.store.keys subject owner = EntityStore.newest s.keys subject owner
  told : ∀ subject owner, Overridden b done subject owner →
    b.aliasDesired.get (subject, some owner) ≠ none ∨ ownerAliasRows s subject owner ≠ [] →
      Told b st.store subject owner

theorem shadowing_start (h : KeyTables s) : Shadowing b s [] { store := s, desired := b.aliasDesired } := by
  refine ⟨h, rfl, rfl, .refl s, rfl, fun _ _ _ => rfl, fun _ _ _ _ => rfl, fun _ _ hcovers => ?_⟩
  obtain ⟨o, ho, -⟩ := hcovers
  cases ho

theorem shadowed_congr (h : activeKeys t = activeKeys s) (subject : String) (owner : EntityId) :
    shadowed t subject owner = shadowed s subject owner := by
  have hiff : ∀ u : Store, shadowed u subject owner = true ↔
      ∃ k ∈ activeKeys u, k.slot = (subject, some owner) ∧ k.method = .override ∧ k.sourceStoreIds ≠ [] := by
    intro u
    rw [shadowed_iff]
    constructor
    · rintro ⟨k, hk, hslot, hmethod, hnone, hsources⟩
      exact ⟨k, mem_activeKeys.mpr ⟨hk, hnone⟩, hslot, hmethod, hsources⟩
    · rintro ⟨k, hk, hslot, hmethod, hsources⟩
      exact ⟨k, (mem_activeKeys.mp hk).1, hslot, hmethod, (mem_activeKeys.mp hk).2, hsources⟩
  rw [Bool.eq_iff_iff, hiff, hiff, h]

theorem activeKeys_retired (h : row.retiredAt ≠ none) : activeKeys (withKey s row) = activeKeys s := by
  simp [activeKeys, withKey, h]

/-- Where a derived row counts now, one counted before. -/
theorem Shadowing.rows_ne {st : Rebuilding} (h : Shadowing b s done st) {subject : String} {owner : EntityId}
    (halias : b.aliasDesired.get (subject, some owner) = none) (hne : ownerAliasRows st.store subject owner ≠ []) :
    ownerAliasRows s subject owner ≠ [] := by
  intro hnil
  have hmem : ∀ r ∈ s.keys, r.derives subject owner = true →
      ¬ (r.retiredAt = none ∨ shadowed s subject owner = true) := by
    intro r hr hderives hcounts
    have hin := mem_ownerAliasRows.mpr ⟨hr, hderives, hcounts⟩
    rw [hnil] at hin
    cases hin
  cases derived_cases st.store subject owner with
  | active ha hnone hderives hhead =>
    have hin := mem_activeKeys.mpr ⟨ha, hnone⟩
    rw [h.active] at hin
    exact hmem _ (mem_activeKeys.mp hin).1 hderives (.inl hnone)
  | shadow hnone hshadowed hhead =>
    obtain ⟨l, hl⟩ := Option.isSome_iff_exists.mp (List.isSome_head?.mpr hne)
    rw [hl, Option.map_some, h.untouched subject owner halias hnil] at hhead
    obtain ⟨r, hr, hderives⟩ := newest_some hhead.symm
    rw [shadowed_congr h.active] at hshadowed
    exact hmem r hr hderives (.inr hshadowed)
  | empty hnone hshadowed hnil' => exact hne hnil'

/-- Where the first derived row says what is hidden, the newest one does. -/
theorem Shadowing.told_same {st : Rebuilding} (h : Shadowing b s done st) (hup : UpToDate s) {subject : String}
    {owner : EntityId} (hcounts : b.aliasDesired.get (subject, some owner) ≠ none ∨ ownerAliasRows s subject owner ≠ [])
    (hfits : ∀ w, b.hidden ((ownerAliasRows st.store subject owner).head?.map KeyRow.derivation)
      subject owner = some w →
      ∃ r, (ownerAliasRows st.store subject owner).head? = some r ∧ SameDerivation r.derivation w) :
    Told b st.store subject owner := by
  cases derived_cases st.store subject owner with
  | @active a ha hnone hderives hhead =>
    by_cases hcovers : Overridden b done subject owner
    · exact h.told subject owner hcovers hcounts
    · have hin := mem_activeKeys.mpr ⟨ha, hnone⟩
      rw [h.active] at hin
      obtain ⟨n, hn, hna⟩ := hup a (mem_activeKeys.mp hin).1 hnone subject owner hderives
      intro w hw
      rw [h.newest subject owner hcovers, hn] at hw ⊢
      obtain ⟨w', hw', hsame⟩ := hidden_same hna hw
      obtain ⟨r, hr, hrw⟩ := hfits w' (by rw [hhead]; exact hw')
      rw [hhead] at hr
      cases hr
      exact ⟨n, rfl, hna.trans (hrw.trans hsame)⟩
  | shadow hnone hshadowed hhead =>
    intro w hw
    rw [← hhead] at hw ⊢
    obtain ⟨r, hr, hrw⟩ := hfits w hw
    exact ⟨_, by rw [hr]; rfl, hrw⟩
  | empty hnone hshadowed hnil =>
    exfalso
    rcases hcounts with halias | hne
    · obtain ⟨entry, hentry⟩ := Option.ne_none_iff_exists'.mp halias
      obtain ⟨r, hr, -⟩ := hfits (entry.entityId, entry.sources) (by rw [Basis.hidden, hentry])
      rw [hnil] at hr
      cases hr
    · obtain ⟨r, hr⟩ := List.exists_mem_of_ne_nil _ hne
      obtain ⟨hmem, hderives, hstate⟩ := mem_ownerAliasRows.mp hr
      rcases hstate with hactive | hshadow
      · have hin := mem_activeKeys.mpr ⟨hmem, hactive⟩
        rw [← h.active] at hin
        rw [hnone r (mem_activeKeys.mp hin).1 hactive] at hderives
        cases hderives
      · rw [← shadowed_congr h.active, hshadowed] at hshadow
        cases hshadow

/-- An override that keeps its derivation is one more that the rebuild shadows. -/
theorem keepDerivation_shadowing {st st' : Rebuilding} {owner : EntityId} (hup : UpToDate s)
    (h : Shadowing b s done st) (hwanted : b.overrideWanted o ≠ none) (howner : o.ownerEntityId = some owner)
    (hkeeps : Keeps b o.subjectKey owner st st') {desired : KeyedTable Slot Wanted}
    (hdesired : desired = b.wanted (done ++ [o])) :
    Shadowing b s (done ++ [o]) { st' with desired := desired } := by
  have hcases : ∀ subject' owner', Overridden b (done ++ [o]) subject' owner' →
      Overridden b done subject' owner' ∨ o.subjectKey = subject' ∧ owner = owner' := by
    rintro subject' owner' ⟨o', ho', hw', hsubject, hown⟩
    rcases List.mem_append.mp ho' with ho' | ho'
    · exact .inl ⟨o', ho', hw', hsubject, hown⟩
    · rw [List.mem_singleton.mp ho'] at hsubject hown
      rw [howner, Option.some.injEq] at hown
      exact .inr ⟨hsubject, hown⟩
  have hmore : ∀ subject' owner', Overridden b done subject' owner' → Overridden b (done ++ [o]) subject' owner' := by
    rintro subject' owner' ⟨o', ho', hrest⟩
    exact ⟨o', List.mem_append_left _ ho', hrest⟩
  have hnow : Overridden b (done ++ [o]) o.subjectKey owner :=
    ⟨o, List.mem_append_right _ (List.mem_singleton.mpr rfl), hwanted, rfl, howner⟩
  cases hkeeps with
  | same hsame hfits =>
    subst hsame
    refine ⟨h.tables, h.store, h.active, h.grows, hdesired, fun subject' owner' hnot => ?_,
      h.untouched, fun subject' owner' hin hcounts => ?_⟩
    · exact h.newest subject' owner' fun hin => hnot (hmore subject' owner' hin)
    · rcases hcases subject' owner' hin with hin | ⟨rfl, rfl⟩
      · exact h.told subject' owner' hin hcounts
      · exact h.told_same hup hcounts hfits
  | @shadow w x hhidden hstale hstore hdesired' hwrites =>
    generalize hrow : ({ wantedRow (o.subjectKey, some owner) ⟨w.1, .aliasMatch, w.2⟩ st.store.nextKey with
      retiredAt := some x } : KeyRow) = row at hstore
    have hid : row.keyId = st.store.nextKey := by rw [← hrow]; rfl
    have hretired : row.retiredAt ≠ none := by rw [← hrow]; simp
    have hderivation : row.derivation = (w.1, sortedSources w.2) := by rw [← hrow]; rfl
    have hderives : ∀ subject' owner', row.derives subject' owner' = true ↔
        o.subjectKey = subject' ∧ owner = owner' := by
      intro subject' owner'
      have hslot : row.slot = (o.subjectKey, some owner) := by rw [← hrow]; rfl
      have hmethod : row.method = .aliasMatch := by rw [← hrow]; rfl
      rw [derives_iff, hslot, Prod.mk.injEq, Option.some.injEq]
      exact ⟨fun hd => hd.1, fun hd => ⟨hd, hmethod⟩⟩
    have hnewest : ∀ subject' owner', newest st'.store.keys subject' owner' =
        if row.derives subject' owner' = true then some row.derivation else newest st.store.keys subject' owner' := by
      intro subject' owner'
      rw [hstore]
      exact newest_append _ _ _ _
    have hother : ∀ subject' owner', ¬ (o.subjectKey = subject' ∧ owner = owner') →
        newest st'.store.keys subject' owner' = newest st.store.keys subject' owner' := by
      intro subject' owner' hne
      rw [hnewest, if_neg (fun hd => hne ((hderives _ _).mp hd))]
    refine ⟨?_, ?_, ?_, ?_, hdesired, ?_, ?_, ?_⟩
    · dsimp only
      rw [hstore]
      exact h.tables.insert hid (fun hnone => absurd hnone hretired)
    · dsimp only
      rw [hstore, withKey]
      dsimp only
      rw [h.store]
    · dsimp only
      rw [hstore, activeKeys_retired hretired]
      exact h.active
    · dsimp only
      rw [hstore]
      exact h.grows.trans (keysGrow_append _ _ _)
    · intro subject' owner' hnot
      dsimp only
      rw [hother subject' owner' (by rintro ⟨rfl, rfl⟩; exact hnot hnow)]
      exact h.newest subject' owner' fun hin => hnot (hmore subject' owner' hin)
    · intro subject' owner' halias hnil
      dsimp only
      rw [hother subject' owner' ?_, h.untouched subject' owner' halias hnil]
      -- A shadow of the slot says that a derived row counted.
      rintro ⟨rfl, rfl⟩
      refine h.rows_ne halias (fun hnil' => ?_) hnil
      rw [hnil', Basis.hidden, halias] at hhidden
      cases hhidden
    · intro subject' owner' hin hcounts
      by_cases hsame : o.subjectKey = subject' ∧ owner = owner'
      · intro w' hw'
        dsimp only at hw' ⊢
        rw [hnewest, if_pos ((hderives _ _).mpr hsame), hderivation] at hw' ⊢
        obtain ⟨rfl, rfl⟩ := hsame
        rw [hidden_again (n := (w.1, sortedSources w.2)) hhidden rfl hw']
        exact ⟨_, rfl, rfl, sameSources_sorted w.2⟩
      · have hold := (hcases subject' owner' hin).resolve_right hsame
        intro w' hw'
        dsimp only at hw' ⊢
        rw [hother subject' owner' hsame] at hw' ⊢
        exact h.told subject' owner' hold hcounts w' hw'

theorem wanted_snoc (b : Basis) (done : List Override) (o : Override) :
    b.wanted (done ++ [o]) = match b.overrideWanted o with
    | none => b.wanted done
    | some w => (b.wanted done).assign (o.subjectKey, o.ownerEntityId) w := by
  rw [Basis.wanted, List.foldl_append]
  rfl

theorem Shadowing.more {st : Rebuilding} (h : Shadowing b s done st)
    (hskip : b.overrideWanted o = none ∨ o.ownerEntityId = none) {desired : KeyedTable Slot Wanted}
    (hdesired : desired = b.wanted (done ++ [o])) : Shadowing b s (done ++ [o]) { st with desired := desired } := by
  have hsame : ∀ subject owner, Overridden b (done ++ [o]) subject owner ↔ Overridden b done subject owner := by
    intro subject owner
    constructor
    · rintro ⟨o', ho', hw', hsubject, howner⟩
      rcases List.mem_append.mp ho' with ho' | ho'
      · exact ⟨o', ho', hw', hsubject, howner⟩
      · rw [List.mem_singleton.mp ho'] at hw' howner
        rcases hskip with hskip | hskip
        · exact absurd hskip hw'
        · rw [hskip] at howner
          cases howner
    · rintro ⟨o', ho', hrest⟩
      exact ⟨o', List.mem_append_left _ ho', hrest⟩
  refine ⟨h.tables, h.store, h.active, h.grows, hdesired, fun subject owner hnot => ?_, h.untouched,
    fun subject owner hin => ?_⟩
  · exact h.newest subject owner fun hin => hnot ((hsame subject owner).mpr hin)
  · exact h.told subject owner ((hsame subject owner).mp hin)

/-- Every override can be applied. -/
theorem applyOverride_total {st : Rebuilding} (hup : UpToDate s) (h : Shadowing b s done st) :
    ∃ st', applyOverride b now st o = .ok st' ∧ Shadowing b s (done ++ [o]) st' ∧ st.writes ≤ st'.writes := by
  have hsnoc := wanted_snoc b done o
  unfold applyOverride
  cases hwanted : b.overrideWanted o with
  | none =>
    rw [hwanted] at hsnoc
    refine ⟨st, rfl, ?_, Nat.le_refl _⟩
    exact h.more (.inl hwanted) (h.desired.trans hsnoc.symm)
  | some w =>
    rw [hwanted] at hsnoc
    cases howner : o.ownerEntityId with
    | none =>
      refine ⟨_, rfl, ?_, Nat.le_refl _⟩
      refine h.more (.inr howner) ?_
      rw [hsnoc, h.desired, howner]
    | some owner =>
      obtain ⟨st', hrun, hkeeps⟩ := keepDerivation_total (b := b) now h.tables o.subjectKey owner
      have hdesired : st'.desired = st.desired := by
        cases hkeeps with
        | same hsame hfits => rw [hsame]
        | shadow hhidden hstale hstore hdesired hwrites => exact hdesired
      have hwrites : st.writes ≤ st'.writes := by
        cases hkeeps with
        | same hsame hfits => rw [hsame]
        | shadow hhidden hstale hstore hdesired hwrites => exact hwrites.le
      refine ⟨{ st' with desired := st'.desired.assign (o.subjectKey, some owner) w },
        by dsimp only; rw [bind_of_ok hrun], ?_, hwrites⟩
      refine keepDerivation_shadowing hup h (by rw [hwanted]; simp) howner hkeeps ?_
      rw [hsnoc, hdesired, h.desired, howner]

theorem applyOverrides_total (hup : UpToDate s) (os : List Override) :
    ∀ {done : List Override} {st : Rebuilding}, Shadowing b s done st →
    ∃ st', os.foldlM (applyOverride b now) st = .ok st' ∧ Shadowing b s (done ++ os) st' ∧ st.writes ≤ st'.writes := by
  induction os with
  | nil =>
    intro done st h
    rw [List.append_nil]
    exact ⟨st, rfl, h, Nat.le_refl _⟩
  | cons o os ih =>
    intro done st h
    obtain ⟨mid, hmid, hmidShadowing, hle⟩ := applyOverride_total now (o := o) hup h
    obtain ⟨st', hrun, hshadowing, hle'⟩ := ih hmidShadowing
    rw [List.append_assoc, List.singleton_append] at hshadowing
    exact ⟨st', by rw [List.foldlM_cons, bind_of_ok hmid, hrun], hshadowing, hle.trans hle'⟩

end EntityStore
