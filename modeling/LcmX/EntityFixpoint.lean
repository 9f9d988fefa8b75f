import LcmX.EntityReconcile

/-!
# What a rebuild leaves

After a rebuild the active rows are those that are asked for. The next rebuild
writes nothing, unless an override of an owner has come to hide a derivation that
did not count before.
-/
namespace EntityStore

open ChangeLog Fallible Rebuilding

variable {b : Basis} (now : Nat → Rat) {s t : Store} {wanted : KeyedTable Slot Wanted}

/-! ## The loop over the active rows -/

def KeyRow.fitsIn (r : KeyRow) (wanted : KeyedTable Slot Wanted) : Bool := (wanted.get r.slot).any r.fits

theorem fitsIn_iff {r : KeyRow} : r.fitsIn wanted = true ↔
    ∃ w, wanted.get r.slot = some w ∧ r.fits w = true := option_any

/-- The rows up to `rest` have been kept where they fit and retired elsewhere. -/
structure Reconciling (wanted : KeyedTable Slot Wanted) (t : Store) (n : Nat) (rest : List KeyRow)
    (st : Rebuilding) : Prop where
  tables : KeyTables st.store
  store : st.store = { t with keys := st.store.keys, nextKey := st.store.nextKey }
  grows : KeysGrow t st.store
  newest : ∀ subject owner, newest st.store.keys subject owner = EntityStore.newest t.keys subject owner
  active : ∀ a, a ∈ activeKeys st.store ↔ a ∈ activeKeys t ∧ (a ∈ rest ∨ a.fitsIn wanted = true)
  gone : ∀ a ∈ activeKeys t, a ∉ rest → a.fitsIn wanted = true → st.desired.get a.slot = none
  left : ∀ slot, (∀ a ∈ activeKeys t, a ∉ rest → a.slot = slot → a.fitsIn wanted = false) →
    st.desired.get slot = wanted.get slot
  writes : n ≤ st.writes
  quiet : (∀ a ∈ activeKeys t, a.fitsIn wanted = true) → st.store = t ∧ st.writes = n

/-- Reconciling an active row keeps it where it fits and retires it elsewhere. -/
theorem reconcile_next {n : Nat} {r : KeyRow} {rest : List KeyRow} {st : Rebuilding} (ht : KeyTables t)
    (h : Reconciling wanted t n (r :: rest) st) (hr : r ∈ activeKeys t) (hnodup : r ∉ rest) :
    ∃ st', reconcile now st r = .ok st' ∧ Reconciling wanted t n rest st' := by
  have hsame : ∀ a ∈ activeKeys t, a.slot = r.slot → a = r := by
    intro a ha hslot
    obtain ⟨ha, hanone⟩ := mem_activeKeys.mp ha
    obtain ⟨hr, hrnone⟩ := mem_activeKeys.mp hr
    exact ht.active a ha r hr hanone hrnone hslot
  have hget : st.desired.get r.slot = wanted.get r.slot := by
    refine h.left r.slot fun a ha hnot hslot => ?_
    exact absurd (hsame a ha hslot ▸ List.mem_cons_self) hnot
  have hnot : ∀ a, a ∉ rest → a ≠ r → a ∉ r :: rest := by
    intro a hrest hne hin
    exact (List.mem_cons.mp hin).elim hne hrest
  unfold reconcile
  rw [hget]
  split
  · rename_i hfits
    change r.fitsIn wanted = true at hfits
    refine ⟨_, rfl, h.tables, h.store, h.grows, h.newest, fun a => ?_, fun a ha hrest hafits => ?_,
      fun slot hslot => ?_, h.writes, h.quiet⟩
    · rw [h.active, List.mem_cons]
      constructor
      · rintro ⟨ha, (rfl | hin) | hin⟩
        · exact ⟨ha, .inr hfits⟩
        · exact ⟨ha, .inl hin⟩
        · exact ⟨ha, .inr hin⟩
      · rintro ⟨ha, hin | hin⟩
        · exact ⟨ha, .inl (.inr hin)⟩
        · exact ⟨ha, .inr hin⟩
    · dsimp only
      rw [KeyedTable.get_delete]
      by_cases he : a.slot = r.slot
      · rw [if_pos (by simpa using he)]
      · rw [if_neg (by simpa using he)]
        exact h.gone a ha (hnot a hrest fun heq => he (heq ▸ rfl)) hafits
    · dsimp only
      rw [KeyedTable.get_delete]
      have hne : slot ≠ r.slot := by
        rintro rfl
        rw [hslot r hr hnodup rfl] at hfits
        cases hfits
      rw [if_neg (by simpa using hne)]
      exact h.left slot fun a ha hin he => hslot a ha (fun hrest => hin (List.mem_cons_of_mem _ hrest)) he
  · rename_i hfits
    have hfits : r.fitsIn wanted = false := Bool.eq_false_iff.mpr hfits
    rw [bind_of_ok (retire_ok now _ _)]
    have hactive : r ∈ activeKeys st.store := (h.active r).mpr ⟨hr, .inl List.mem_cons_self⟩
    obtain ⟨hmem, hnone⟩ := mem_activeKeys.mp hactive
    refine ⟨_, rfl, h.tables.write hmem (by simp), ?_, h.grows.trans (keysGrow_write _ _ _),
      fun subject owner => ?_, fun a => ?_,
      fun a ha hrest hafits => ?_, fun slot hslot => ?_, h.writes.trans (Nat.le_succ _), fun hall => ?_⟩
    · dsimp only
      rw [h.store]
    · exact (newest_write _ _ _ _ _).trans (h.newest subject owner)
    · have hstep : a ∈ activeKeys
          { st.store with keys := keyColumn.write r.keyId (some (now st.ticks)) st.store.keys } ↔
          a ∈ activeKeys st.store ∧ a ≠ r := by
        rw [mem_activeKeys, mem_activeKeys]
        constructor
        · rintro ⟨ha, hanone⟩
          rcases mem_writeKey.mp ha with ⟨ha, hne⟩ | ⟨_, -, -, rfl⟩
          · exact ⟨⟨ha, hanone⟩, fun he => hne (he ▸ rfl)⟩
          · cases hanone
        · rintro ⟨⟨ha, hanone⟩, hne⟩
          exact ⟨mem_writeKey.mpr (.inl ⟨ha, fun hid => hne (h.tables.key_unique ha hmem hid)⟩), hanone⟩
      rw [hstep, h.active, List.mem_cons]
      constructor
      · rintro ⟨⟨ha, (rfl | hin) | hin⟩, hne⟩
        · exact absurd rfl hne
        · exact ⟨ha, .inl hin⟩
        · exact ⟨ha, .inr hin⟩
      · rintro ⟨ha, hin | hin⟩
        · exact ⟨⟨ha, .inl (.inr hin)⟩, fun he => hnodup (he ▸ hin)⟩
        · refine ⟨⟨ha, .inr hin⟩, fun he => ?_⟩
          rw [he, hfits] at hin
          cases hin
    · refine h.gone a ha (hnot a hrest fun heq => ?_) hafits
      rw [heq, hfits] at hafits
      cases hafits
    · refine h.left slot fun a ha hin he => hslot a ha (fun hrest => hin (List.mem_cons_of_mem _ hrest)) he
    · rw [hall r hr] at hfits
      cases hfits

theorem reconcile_loop {n : Nat} (ht : KeyTables t) (rest : List KeyRow) : ∀ {st : Rebuilding},
    Reconciling wanted t n rest st →
    (∀ r ∈ rest, r ∈ activeKeys t) → rest.Nodup → ∃ st', rest.foldlM (reconcile now) st = .ok st' ∧
      Reconciling wanted t n [] st' := by
  induction rest with
  | nil => exact fun {st} h _ _ => ⟨st, rfl, h⟩
  | cons r rest ih =>
    intro st h hmem hnodup
    rw [List.nodup_cons] at hnodup
    obtain ⟨mid, hmid, hnext⟩ := reconcile_next now ht h (hmem r List.mem_cons_self) hnodup.1
    obtain ⟨st', hrun, hlast⟩ := ih hnext (fun x hx => hmem x (List.mem_cons_of_mem _ hx)) hnodup.2
    exact ⟨st', by rw [List.foldlM_cons, bind_of_ok hmid, hrun], hlast⟩

theorem reconciling_start {st : Rebuilding} (ht : KeyTables st.store) :
    Reconciling st.desired st.store st.writes (activeKeys st.store) st := by
  refine ⟨ht, rfl, .refl _, fun _ _ => rfl, fun a => ?_, fun a ha hnot => absurd ha hnot,
    fun _ _ => rfl, Nat.le_refl _, fun _ => ⟨rfl, rfl⟩⟩
  exact ⟨fun ha => ⟨ha, .inl ha⟩, fun h => h.1⟩

/-! ## The last loop -/

/-- The rest of what is wanted is still to be added. -/
structure Adding (wanted : KeyedTable Slot Wanted) (t : Store) (rest : List (Slot × Wanted))
    (st : Rebuilding) : Prop where
  tables : KeyTables st.store
  upToDate : UpToDate st.store
  store : st.store = { t with keys := st.store.keys, nextKey := st.store.nextKey }
  grows : KeysGrow t st.store
  newest : ∀ subject owner w, wanted.get (subject, some owner) = some w → w.method = .override →
    newest st.store.keys subject owner = EntityStore.newest t.keys subject owner
  rows : ∀ a ∈ activeKeys st.store, a.fitsIn wanted = true
  slots : ∀ slot w, wanted.get slot = some w → (slot, w) ∈ rest ∨ ∃ a ∈ activeKeys st.store, a.slot = slot
  free : ∀ p ∈ rest, wanted.get p.1 = some p.2 ∧ ∀ a ∈ activeKeys st.store, a.slot ≠ p.1

theorem wantedRow_fits (p : Slot × Wanted) (n : Nat) : (wantedRow p.1 p.2 n).fits p.2 = true := by
  simp [KeyRow.fits, KeyRow.derivedAs, wantedRow, sameSources_sorted]

/-- Adding what is wanted for a free slot leaves the rest to add. -/
theorem add_next {p : Slot × Wanted} {rest : List (Slot × Wanted)} {st : Rebuilding}
    (h : Adding wanted t (p :: rest) st)
    (hfresh : p.1 ∉ rest.map Prod.fst) : ∃ st', add st p = .ok st' ∧ Adding wanted t rest st' := by
  obtain ⟨hget, hopen⟩ := h.free p List.mem_cons_self
  have hfree : keyConflict st.store (wantedRow p.1 p.2 st.store.nextKey) = false := by
    refine keyConflict_free fun r hr hnone hslot => ?_
    exact absurd hslot (hopen r (mem_activeKeys.mpr ⟨hr, hnone⟩))
  have hrun : keyHeld (insertKey (wantedRow p.1 p.2 st.store.nextKey) st.store) =
      .ok (withKey st.store (wantedRow p.1 p.2 st.store.nextKey)) := by
    rw [insertKey_free rfl hfree]
    rfl
  have hactive : ∀ a, a ∈ activeKeys (withKey st.store (wantedRow p.1 p.2 st.store.nextKey)) ↔
      a ∈ activeKeys st.store ∨ a = wantedRow p.1 p.2 st.store.nextKey := by
    intro a
    rw [mem_activeKeys, mem_activeKeys, withKey, List.mem_append, List.mem_singleton]
    constructor
    · rintro ⟨ha | ha, hnone⟩
      · exact .inl ⟨ha, hnone⟩
      · exact .inr ha
    · rintro (⟨ha, hnone⟩ | rfl)
      · exact ⟨.inl ha, hnone⟩
      · exact ⟨.inr rfl, rfl⟩
  refine ⟨_, by rw [add, bind_of_ok hrun], ?_, ?_, ?_, ?_, ?_, ?_, ?_, ?_⟩
  · exact h.tables.insert rfl (fun _ => hfree)
  · exact h.upToDate.insert h.tables rfl hfree
  · dsimp only
    rw [withKey]
    dsimp only
    rw [h.store]
  · exact h.grows.trans (keysGrow_append _ _ _)
  · intro subject owner w hw hmethod
    refine Eq.trans (newest_append _ _ _ _) ?_
    rw [if_neg, h.newest subject owner w hw hmethod]
    intro hderives
    obtain ⟨hslot, halias⟩ := derives_iff.mp hderives
    change p.1 = _ at hslot
    change p.2.method = _ at halias
    rw [hslot, hw] at hget
    cases hget
    rw [hmethod] at halias
    cases halias
  · intro a ha
    rcases (hactive a).mp ha with ha | rfl
    · exact h.rows a ha
    · exact fitsIn_iff.mpr ⟨p.2, hget, wantedRow_fits p _⟩
  · intro slot w hw
    rcases h.slots slot w hw with hin | ⟨a, ha, hslot⟩
    · rcases List.mem_cons.mp hin with he | hin
      · refine .inr ⟨_, (hactive _).mpr (.inr rfl), ?_⟩
        rw [← he]
        rfl
      · exact .inl hin
    · exact .inr ⟨a, (hactive a).mpr (.inl ha), hslot⟩
  · intro q hq
    obtain ⟨hqget, hqopen⟩ := h.free q (List.mem_cons_of_mem _ hq)
    refine ⟨hqget, fun a ha => ?_⟩
    rcases (hactive a).mp ha with ha | rfl
    · exact hqopen a ha
    · exact fun he => hfresh (List.mem_map.mpr ⟨q, hq, he.symm⟩)

theorem add_loop (rest : List (Slot × Wanted)) : ∀ {st : Rebuilding}, Adding wanted t rest st →
    (rest.map Prod.fst).Nodup →
    ∃ st', rest.foldlM add st = .ok st' ∧ Adding wanted t [] st' := by
  induction rest with
  | nil => exact fun {st} h _ => ⟨st, rfl, h⟩
  | cons p rest ih =>
    intro st h hnodup
    rw [List.map_cons, List.nodup_cons] at hnodup
    obtain ⟨mid, hmid, hnext⟩ := add_next h hnodup.1
    obtain ⟨st', hrun, hlast⟩ := ih hnext hnodup.2
    exact ⟨st', by rw [List.foldlM_cons, bind_of_ok hmid, hrun], hlast⟩

/-! ## A rebuild -/

theorem overrideWanted_method {o : Override} {w : Wanted} (h : b.overrideWanted o = some w) :
    w.method = .override ∧ w.sources ≠ [] := by
  unfold Basis.overrideWanted at h
  split at h
  · cases h
  · split at h
    · rename_i hbound
      cases h
      rw [Bool.and_eq_true, decide_eq_true_eq] at hbound
      exact ⟨rfl, hbound.2⟩
    · cases h

/-- The slot of an override that is asked for holds an override with sources. -/
theorem wanted_overridden (os : List Override) {subject : String} {owner : EntityId}
    (h : Overridden b os subject owner) :
    ∃ w, (b.wanted os).get (subject, some owner) = some w ∧ w.method = .override ∧ w.sources ≠ [] := by
  induction os using List.reverseRecOn with
  | nil =>
    obtain ⟨o, ho, -⟩ := h
    cases ho
  | append_singleton os o ih =>
    have hsnoc := wanted_snoc b os o
    obtain ⟨o', ho', hw', hsubject, howner⟩ := h
    cases hw : b.overrideWanted o with
    | none =>
      rw [hw] at hsnoc
      rw [hsnoc]
      refine ih ⟨o', (List.mem_append.mp ho').resolve_right fun hin => ?_, hw', hsubject, howner⟩
      rw [List.mem_singleton.mp hin] at hw'
      exact hw' hw
    | some w =>
      rw [hw] at hsnoc
      rw [hsnoc, KeyedTable.get_assign]
      by_cases he : (subject, some owner) = (o.subjectKey, o.ownerEntityId)
      · rw [if_pos he]
        exact ⟨w, rfl, overrideWanted_method hw⟩
      · rw [if_neg he]
        refine ih ⟨o', (List.mem_append.mp ho').resolve_right fun hin => ?_, hw', hsubject, howner⟩
        rw [List.mem_singleton.mp hin] at hsubject howner
        exact he (by rw [hsubject, howner])

/-- One active row for each slot that is asked for, with its entity, method and sources, and no other. -/
structure Exact (wanted : KeyedTable Slot Wanted) (s : Store) : Prop where
  rows : ∀ a ∈ activeKeys s, ∃ w, wanted.get a.slot = some w ∧ a.fits w = true
  slots : ∀ slot w, wanted.get slot = some w → ∃ a ∈ activeKeys s, a.slot = slot
  unique : ∀ a ∈ activeKeys s, ∀ a' ∈ activeKeys s, a.slot = a'.slot → a = a'

/-- An override of the slot has come to hide a derivation that did not count, from sources that are not those of now. -/
def Stale (b : Basis) (s : Store) (subject : String) (owner : EntityId) : Prop :=
  b.aliasDesired.get (subject, some owner) = none ∧ ownerAliasRows s subject owner = [] ∧
    ∃ n, newest s.keys subject owner = some n ∧ sameSources n.2 (b.ownerSources subject owner) = false

structure Rebuilt (b : Basis) (s s' : Store) : Prop where
  tables : KeyTables s'
  upToDate : UpToDate s'
  store : s' = { s with keys := s'.keys, nextKey := s'.nextKey }
  grows : KeysGrow s s'
  exact : Exact (b.wanted (overrides s)) s'
  told : ∀ subject owner, Overridden b (overrides s) subject owner →
    (Told b s' subject owner ↔ ¬ Stale b s subject owner)

variable {os : List Override}

theorem Shadowing.told_iff {st : Rebuilding} (h : Shadowing b s os st) {subject : String} {owner : EntityId}
    (hover : Overridden b os subject owner) : Told b st.store subject owner ↔ ¬ Stale b s subject owner := by
  by_cases hcounts : b.aliasDesired.get (subject, some owner) ≠ none ∨ ownerAliasRows s subject owner ≠ []
  · refine ⟨fun _ hstale => ?_, fun _ => h.told subject owner hover hcounts⟩
    exact hcounts.elim (fun halias => halias hstale.1) (fun hne => hne hstale.2.1)
  · rw [not_or, not_not, not_not] at hcounts
    obtain ⟨halias, hnil⟩ := hcounts
    have hnewest := h.untouched subject owner halias hnil
    unfold Told
    rw [hnewest]
    constructor
    · rintro htold ⟨-, -, n, hn, hsources⟩
      obtain ⟨n', hn', hsame⟩ := htold (n.1, b.ownerSources subject owner) (by rw [hn, Basis.hidden, halias]; rfl)
      rw [hn] at hn'
      cases hn'
      rw [hsame.2] at hsources
      cases hsources
    · intro hstale w hw
      cases hn : EntityStore.newest s.keys subject owner with
      | none =>
        rw [hn, Basis.hidden, halias] at hw
        cases hw
      | some n =>
        rw [hn, Basis.hidden, halias] at hw
        cases hw
        refine ⟨n, rfl, rfl, ?_⟩
        rw [← Bool.not_eq_false]
        exact fun hsources => hstale ⟨halias, hnil, n, hn, hsources⟩

/-- Kept rows of a store that was up to date are up to date. -/
theorem adding_start {st st' : Rebuilding} (hup : UpToDate s) (hshadow : Shadowing b s os st)
    (h : Reconciling (b.wanted os) st.store st.writes [] st') : Adding (b.wanted os) st.store st'.desired.rows st' := by
  have hkept : ∀ a, a ∈ activeKeys st'.store ↔ a ∈ activeKeys st.store ∧ a.fitsIn (b.wanted os) = true := by
    intro a
    rw [h.active]
    simp
  have hleft : ∀ slot, (∀ a ∈ activeKeys st'.store, a.slot ≠ slot) → st'.desired.get slot = (b.wanted os).get slot := by
    intro slot hfree
    refine h.left slot fun a ha _ hslot => ?_
    rw [← Bool.not_eq_true]
    exact fun hfits => hfree a ((hkept a).mpr ⟨ha, hfits⟩) hslot
  refine ⟨h.tables, fun a ha hnone subject owner hderives => ?_, h.store, h.grows,
    fun subject owner _ _ _ => h.newest subject owner,
    fun a ha => ((hkept a).mp ha).2, fun slot w hw => ?_, fun p hp => ?_⟩
  · obtain ⟨hactive, hfits⟩ := (hkept a).mp (mem_activeKeys.mpr ⟨ha, hnone⟩)
    obtain ⟨w, hw, hfits⟩ := fitsIn_iff.mp hfits
    obtain ⟨hslot, hmethod⟩ := derives_iff.mp hderives
    have hnot : ¬ Overridden b os subject owner := by
      intro hover
      obtain ⟨w', hw', hmethod', -⟩ := wanted_overridden os hover
      rw [← hslot, hw] at hw'
      cases hw'
      rw [KeyRow.fits, Bool.and_eq_true, decide_eq_true_eq, hmethod, hmethod'] at hfits
      cases hfits.2
    rw [hshadow.active] at hactive
    rw [h.newest, hshadow.newest subject owner hnot]
    exact hup a (mem_activeKeys.mp hactive).1 hnone subject owner hderives
  · by_cases hslot : ∃ a ∈ activeKeys st'.store, a.slot = slot
    · exact .inr hslot
    · refine .inl (KeyedTable.get_eq_some.mp ?_)
      rw [hleft slot fun a ha he => hslot ⟨a, ha, he⟩, hw]
  · have hget : st'.desired.get p.1 = some p.2 := KeyedTable.get_eq_some.mpr hp
    have hfree : ∀ a ∈ activeKeys st'.store, a.slot ≠ p.1 := by
      intro a ha hslot
      obtain ⟨hactive, hfits⟩ := (hkept a).mp ha
      have hgone := h.gone a hactive List.not_mem_nil hfits
      rw [hslot, hget] at hgone
      cases hgone
    exact ⟨(hleft p.1 hfree).symm.trans hget, hfree⟩

theorem rebuildWith_total (htables : KeyTables s) (hup : UpToDate s) :
    ∃ s' n, rebuildWith b now s = .ok (s', n) ∧ Rebuilt b s s' := by
  obtain ⟨st, hover, hshadow, -⟩ := applyOverrides_total now hup (overrides s) (shadowing_start (b := b) htables)
  rw [List.nil_append] at hshadow
  have hstart := reconciling_start hshadow.tables
  rw [hshadow.desired] at hstart
  obtain ⟨mid, hmid, hreconciled⟩ := reconcile_loop now hshadow.tables _ hstart (fun _ hr => hr)
    (hshadow.tables.nodup.filter _)
  have hadding := adding_start hup hshadow hreconciled
  obtain ⟨last, hlast, hadded⟩ := add_loop _ hadding mid.desired.unique
  refine ⟨last.store, last.writes, ?_, hadded.tables, hadded.upToDate, ?_,
    hshadow.grows.trans hadded.grows, ⟨fun a ha => ?_, ?_, ?_⟩, ?_⟩
  · rw [rebuildWith, bind_of_ok hover, bind_of_ok hmid, bind_of_ok hlast]
  · rw [hadded.store, hshadow.store]
  · exact fitsIn_iff.mp (hadded.rows a ha)
  · intro slot w hw
    exact (hadded.slots slot w hw).resolve_left List.not_mem_nil
  · intro a ha a' ha' hslot
    obtain ⟨ha, hnone⟩ := mem_activeKeys.mp ha
    obtain ⟨ha', hnone'⟩ := mem_activeKeys.mp ha'
    exact hadded.tables.active a ha a' ha' hnone hnone' hslot
  · intro subject owner hov
    obtain ⟨w, hw, hmethod, -⟩ := wanted_overridden _ hov
    rw [← hshadow.told_iff hov, Told, Told, hadded.newest subject owner w hw hmethod]

/-! ## The next rebuild -/

/-- The derived rows of an overridden slot are the retired ones. -/
theorem Exact.head (h : Exact (b.wanted os) s) {subject : String} {owner : EntityId}
    (hover : Overridden b os subject owner) :
    (ownerAliasRows s subject owner).head?.map KeyRow.derivation = newest s.keys subject owner := by
  obtain ⟨w, hw, hmethod, hsources⟩ := wanted_overridden os hover
  obtain ⟨k, hk, hslot⟩ := h.slots _ w hw
  obtain ⟨w', hw', hfits⟩ := h.rows k hk
  rw [hslot, hw] at hw'
  cases hw'
  rw [KeyRow.fits, Bool.and_eq_true, decide_eq_true_eq, derivedAs_iff] at hfits
  obtain ⟨hkmem, hknone⟩ := mem_activeKeys.mp hk
  have hshadowed : shadowed s subject owner = true := by
    refine shadowed_iff.mpr ⟨k, hkmem, hslot, hfits.2.trans hmethod, hknone, fun hnil => ?_⟩
    obtain ⟨x, hx⟩ := List.exists_mem_of_ne_nil _ hsources
    have hin := (sameSources_iff.mp hfits.1.2 x).mpr hx
    change x ∈ k.sourceStoreIds at hin
    rw [hnil] at hin
    cases hin
  cases derived_cases s subject owner with
  | active ha hnone hderives hhead =>
    obtain ⟨haslot, hamethod⟩ := derives_iff.mp hderives
    rw [h.unique _ (mem_activeKeys.mpr ⟨ha, hnone⟩) k hk (haslot.trans hslot.symm), hfits.2, hmethod] at hamethod
    cases hamethod
  | shadow hnone hshadowed hhead => exact hhead
  | empty hnone hshadowed' hnil =>
    rw [hshadowed] at hshadowed'
    cases hshadowed'

theorem keepDerivation_again {st : Rebuilding} (h : KeyTables st.store) {subject : String} {owner : EntityId}
    (hhead : (ownerAliasRows st.store subject owner).head?.map KeyRow.derivation = newest st.store.keys subject owner) :
    ∃ st', keepDerivation b now subject owner st = .ok st' ∧ (Told b st.store subject owner → st' = st) ∧
      (¬ Told b st.store subject owner → st.writes < st'.writes) := by
  obtain ⟨st', hrun, hkeeps⟩ := keepDerivation_total (b := b) now h subject owner
  refine ⟨st', hrun, ?_⟩
  cases hkeeps with
  | same hsame hfits =>
    refine ⟨fun _ => hsame, fun hnot => absurd (fun w hw => ?_) hnot⟩
    rw [← hhead] at hw ⊢
    obtain ⟨r, hr, hrw⟩ := hfits w hw
    exact ⟨_, by rw [hr]; rfl, hrw⟩
  | shadow hhidden hstale hstore hdesired hwrites =>
    refine ⟨fun htold => ?_, fun _ => hwrites⟩
    rw [hhead] at hhidden
    obtain ⟨n, hn, hsame⟩ := htold _ hhidden
    rw [← hhead, Option.map_eq_some_iff] at hn
    obtain ⟨r, hr, rfl⟩ := hn
    exact absurd hsame (hstale r hr)

/-- What the override would hide is the newest derivation already. -/
def ToldBy (b : Basis) (s : Store) (o : Override) : Prop :=
  ∀ owner, b.overrideWanted o ≠ none → o.ownerEntityId = some owner → Told b s o.subjectKey owner

theorem toldBy_all : (∀ o ∈ os, ToldBy b s o) ↔ ∀ subject owner, Overridden b os subject owner →
    Told b s subject owner := by
  constructor
  · rintro h subject owner ⟨o, ho, hwanted, rfl, howner⟩
    exact h o ho owner hwanted howner
  · intro h o ho owner hwanted howner
    exact h o.subjectKey owner ⟨o, ho, hwanted, rfl, howner⟩

/-- An override that the rows already tell writes nothing, any other writes. -/
theorem applyOverride_again {st st' : Rebuilding} {o : Override} (h : KeyTables st.store)
    (hhead : ∀ owner, b.overrideWanted o ≠ none → o.ownerEntityId = some owner →
      (ownerAliasRows st.store o.subjectKey owner).head?.map KeyRow.derivation =
      newest st.store.keys o.subjectKey owner)
    (hrun : applyOverride b now st o = .ok st') :
    (ToldBy b st.store o → st'.store = st.store ∧ st'.writes = st.writes) ∧
    (¬ ToldBy b st.store o → st.writes < st'.writes) := by
  unfold applyOverride at hrun
  cases hwanted : b.overrideWanted o with
  | none =>
    rw [hwanted] at hrun
    cases hrun
    exact ⟨fun _ => ⟨rfl, rfl⟩, fun hnot => absurd (fun owner hw _ => absurd hwanted hw) hnot⟩
  | some w =>
    have hasked : b.overrideWanted o ≠ none := by simp [hwanted]
    rw [hwanted] at hrun
    cases howner : o.ownerEntityId with
    | none =>
      rw [howner] at hrun
      cases hrun
      refine ⟨fun _ => ⟨rfl, rfl⟩, fun hnot => absurd (fun owner _ hown => ?_) hnot⟩
      rw [howner] at hown
      cases hown
    | some owner =>
      rw [howner] at hrun
      obtain ⟨mid, hmid, hsame, hmore⟩ := keepDerivation_again (b := b) now h (hhead owner hasked howner)
      dsimp only at hrun
      rw [bind_of_ok hmid] at hrun
      cases hrun
      refine ⟨fun htold => ?_, fun hnot => hmore fun htold => hnot fun owner' _ hown => ?_⟩
      · rw [hsame (htold owner hasked howner)]
        exact ⟨rfl, rfl⟩
      · rw [howner] at hown
        cases hown
        exact htold

/-- Overrides that the rows already tell write nothing, any other writes. -/
theorem applyOverrides_again (hup : UpToDate s) (os : List Override)
    (hhead : ∀ subject owner, Overridden b os subject owner →
      (ownerAliasRows s subject owner).head?.map KeyRow.derivation = newest s.keys subject owner) :
    ∀ {done : List Override} {st st' : Rebuilding}, Shadowing b s done st → st.store = s →
      os.foldlM (applyOverride b now) st = .ok st' →
      ((∀ o ∈ os, ToldBy b s o) → st'.store = s ∧ st'.writes = st.writes) ∧
      ((∃ o ∈ os, ¬ ToldBy b s o) → st.writes < st'.writes) := by
  induction os with
  | nil =>
    intro done st st' _ hstore hrun
    cases hrun
    refine ⟨fun _ => ⟨hstore, rfl⟩, ?_⟩
    rintro ⟨o, ho, -⟩
    cases ho
  | cons o os ih =>
    intro done st st' h hstore hrun
    obtain ⟨mid, hmid, hmidShadowing, -⟩ := applyOverride_total now (o := o) hup h
    rw [List.foldlM_cons, bind_of_ok hmid] at hrun
    have hstep := applyOverride_again now h.tables (fun owner hw hown => by
      rw [hstore]
      exact hhead o.subjectKey owner ⟨o, List.mem_cons_self, hw, rfl, hown⟩) hmid
    rw [hstore] at hstep
    have hrest : ∀ subject owner, Overridden b os subject owner →
        (ownerAliasRows s subject owner).head?.map KeyRow.derivation = newest s.keys subject owner := by
      rintro subject owner ⟨o', ho', hasked⟩
      exact hhead subject owner ⟨o', List.mem_cons_of_mem _ ho', hasked⟩
    by_cases htold : ToldBy b s o
    · obtain ⟨hmidStore, hmidWrites⟩ := hstep.1 htold
      obtain ⟨hquiet, hloud⟩ := ih hrest hmidShadowing hmidStore hrun
      rw [hmidWrites] at hquiet hloud
      refine ⟨fun hall => hquiet fun o' ho' => hall o' (List.mem_cons_of_mem _ ho'), ?_⟩
      rintro ⟨o', ho', hnot⟩
      refine hloud ⟨o', (List.mem_cons.mp ho').resolve_left ?_, hnot⟩
      rintro rfl
      exact hnot htold
    · refine ⟨fun hall => absurd (hall o List.mem_cons_self) htold, fun _ => ?_⟩
      obtain ⟨last, hlast, -, hle⟩ := applyOverrides_total now hup os hmidShadowing
      rw [hrun] at hlast
      cases hlast
      exact (hstep.2 htold).trans_le hle

/-- When the rows are those that are asked for, nothing is left to add. -/
theorem Exact.nothing_left {n : Nat} {st : Rebuilding} (h : Exact (b.wanted os) s)
    (hst : Reconciling (b.wanted os) s n [] st) : st.desired.rows = [] := by
  rw [List.eq_nil_iff_forall_not_mem]
  intro p hp
  have hget : st.desired.get p.1 = some p.2 := KeyedTable.get_eq_some.mpr hp
  have hfree : ∀ a ∈ activeKeys s, a.slot ≠ p.1 := by
    intro a ha hslot
    have hgone := hst.gone a ha List.not_mem_nil (fitsIn_iff.mpr (h.rows a ha))
    rw [hslot, hget] at hgone
    cases hgone
  rw [hst.left p.1 fun a ha _ hslot => absurd hslot (hfree a ha)] at hget
  obtain ⟨a, ha, hslot⟩ := h.slots p.1 p.2 hget
  exact hfree a ha hslot

theorem add_writes {st st' : Rebuilding} {p : Slot × Wanted} (h : add st p = .ok st') : st'.writes = st.writes + 1 := by
  rw [add, bind_ok] at h
  obtain ⟨s', -, h⟩ := h
  cases h
  rfl

/-- A rebuild of a rebuilt store writes only shadows. -/
theorem rebuildWith_again (htables : KeyTables s) (hup : UpToDate s) (hexact : Exact (b.wanted (overrides s)) s) :
    ∃ s' n, rebuildWith b now s = .ok (s', n) ∧
      (n = 0 ↔ ∀ subject owner, Overridden b (overrides s) subject owner → Told b s subject owner) ∧
      (n = 0 → s' = s) := by
  obtain ⟨st, hover, hshadow, -⟩ := applyOverrides_total now hup (overrides s) (shadowing_start (b := b) htables)
  obtain ⟨hquiet, hloud⟩ := applyOverrides_again now hup _ (fun _ _ hasked => hexact.head hasked)
      (shadowing_start (b := b) htables) rfl hover
  rw [List.nil_append] at hshadow
  have hstart := reconciling_start hshadow.tables
  rw [hshadow.desired] at hstart
  obtain ⟨mid, hmid, hreconciled⟩ := reconcile_loop now hshadow.tables _ hstart (fun _ hr => hr)
    (hshadow.tables.nodup.filter _)
  obtain ⟨last, hlast, -⟩ := add_loop _ (adding_start hup hshadow hreconciled) mid.desired.unique
  refine ⟨last.store, last.writes, by rw [rebuildWith, bind_of_ok hover, bind_of_ok hmid, bind_of_ok hlast], ?_⟩
  rw [← toldBy_all]
  by_cases hall : ∀ o ∈ overrides s, ToldBy b s o
  · obtain ⟨hstore, hwrites⟩ := hquiet hall
    rw [hstore, hwrites] at hreconciled
    obtain ⟨hmidStore, hmidWrites⟩ := hreconciled.quiet fun a ha => fitsIn_iff.mpr (hexact.rows a ha)
    rw [hexact.nothing_left hreconciled] at hlast
    cases hlast
    exact ⟨iff_of_true hmidWrites hall, fun _ => hmidStore⟩
  · have hpos : 0 < last.writes := by
      have hmidPos : 0 < mid.writes := by
        refine lt_of_lt_of_le (hloud ?_) hreconciled.writes
        simpa only [not_forall, exists_prop] using hall
      exact foldlM_invariant (P := fun x : Rebuilding => 0 < x.writes)
        (fun _ _ _ _ ha hb => by rw [add_writes hb]; omega) hmidPos hlast
    exact ⟨iff_of_false hpos.ne' hall, fun hzero => absurd hzero hpos.ne'⟩

end EntityStore
