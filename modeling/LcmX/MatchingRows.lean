import LcmX.MatchingWalk

/-!
# The loop over the rows

A row is placed on a free key of its own, or on the root of an augmenting path
whose units move one key along. Otherwise the search has closed the dead keys
around it, and it stays unmatched.
-/
namespace RecognitionMatching

open Finset

variable {K : Type} [DecidableEq K]
variable {cap : K → Nat} {T : Finset (List K)} {own : List K} {keys : Finset K}

theorem lookup_split {β : Type} (pre : List (K × β)) (k : K) (e : β) (post : List (K × β))
    (h : k ∉ pre.map Prod.fst) : (pre ++ (k, e) :: post).lookup k = some e := by
  induction pre with
  | nil => simp
  | cons x pre ih =>
    have hx : k ≠ x.1 := fun he => h (by simp [he])
    have hpre : k ∉ pre.map Prod.fst := fun hm => h (by simp [hm])
    have hb : (k == x.1) = false := by simpa using hx
    rw [List.cons_append, List.lookup_cons, hb]
    exact ih hpre

/-- What the walk back along the parents leaves alone. -/
structure Shifted (st st' : MatchState K) : Prop where
  load : st'.load = st.load
  matched : st'.matched = st.matched
  dead : st'.dead = st.dead
  spent : st'.spent = st.spent
  counts : ∀ t, ∑ k ∈ t.toFinset, st'.units t k = ∑ k ∈ t.toFinset, st.units t k

/-- The walk back along the parents ends at a key of the row, with the hole there.
The induction is on the prefix of the parents that ends with the current key. -/
theorem shift_spec {parent : List (K × Option (List K × K))} (hnd : (parent.map Prod.fst).Nodup) (fuel : Nat) :
    ∀ (pre : List (K × Option (List K × K))) (found : K) (e : Option (List K × K))
      (post : List (K × Option (List K × K))) (st : MatchState K),
      parent = pre ++ (found, e) :: post → pre.length < fuel →
      Inv cap T (some found) st → found ∉ st.dead →
      (∀ p k f q, pre ++ [(found, e)] = p ++ (k, f) :: q → Entry own st p k f) →
      Inv cap T (some (shift parent fuel st found).2) (shift parent fuel st found).1 ∧
      (shift parent fuel st found).2 ∈ own ∧
      (shift parent fuel st found).2 ∉ st.dead ∧
      Shifted st (shift parent fuel st found).1 := by
  induction fuel with
  | zero => intro pre found e post st _ hlt; omega
  | succ fuel ih =>
    intro pre found e post st hp hlt hinv hfd hent
    have hfpre : found ∉ pre.map Prod.fst := by
      intro hm
      rw [hp, List.map_append, List.nodup_append] at hnd
      exact hnd.2.2 found hm found (by simp) rfl
    have hself : Entry own st pre found e := hent pre found e [] (by simp)
    rw [shift, hp, lookup_split pre found e post hfpre, ← hp]
    cases e with
    | none => exact ⟨hinv, hself, hfd, ⟨rfl, rfl, rfl, rfl, fun _ => rfl⟩⟩
    | some e =>
      obtain ⟨kind, previous⟩ := e
      obtain ⟨hfk, hprev, hu, hpd⟩ := hself
      have hne : previous ≠ found := fun he => hfpre (he ▸ hprev)
      obtain ⟨⟨p', e'⟩, hmem, rfl⟩ := List.mem_map.mp hprev
      obtain ⟨pre1, pre2, rfl⟩ := List.append_of_mem hmem
      have hmove := inv_move hinv hfk hne hu hpd hfd
      -- pointers up to `previous` start before it, so the unit taken there is not theirs
      have hent' : ∀ p k f q, pre1 ++ [(p', e')] = p ++ (k, f) :: q →
          Entry own (move kind p' found st) p k f := by
        intro p k f q hsplit
        have hold := hent p k f (q ++ pre2 ++ [(found, some (kind, p'))]) (by
          have := congrArg (fun l => l ++ pre2 ++ [(found, some (kind, p'))]) hsplit
          simpa using this)
        have hne' : ∀ x ∈ p.map Prod.fst, x ≠ p' := by
          rintro x hx rfl
          have hx1 : x ∈ pre1.map Prod.fst := by
            rcases snoc_split hsplit with ⟨rfl, -, -⟩ | ⟨q', -, hl⟩
            · exact hx
            · rw [hl, List.map_append]
              exact List.mem_append_left _ hx
          rw [hp] at hnd
          simp only [List.append_assoc, List.map_append, List.map_cons, List.nodup_append] at hnd
          exact hnd.2.2 x hx1 x (by simp) rfl
        cases f with
        | none => exact hold
        | some f =>
          obtain ⟨h1, h2, h3, h4⟩ := hold
          refine ⟨h1, h2, ?_, h4⟩
          rw [move_units]
          simp only [hne' f.2 h2, and_false, if_false]
          omega
      obtain ⟨h1, h2, h3, h4⟩ := ih pre1 p' e' (pre2 ++ (found, some (kind, p')) :: post)
        (move kind p' found st) (by rw [hp]; simp)
        (by simp only [List.length_append, List.length_cons] at hlt; omega) hmove hpd hent'
      refine ⟨h1, h2, h3, ⟨h4.load, h4.matched, h4.dead, h4.spent, fun t => ?_⟩⟩
      rw [h4.counts t, sum_keys_move hinv hfk hu t]

/-- Before the walk the free key takes the load of the new row. -/
theorem inv_load {st : MatchState K} {k : K} (h : Inv cap T none st) (hfree : st.load k < cap k) :
    Inv cap T (some k) { st with load := Function.update st.load k (st.load k + 1) } := by
  have hkd : k ∉ st.dead := fun hd => by have := h.dead_full k hd; omega
  refine ⟨h.unit_mem, ?_, ?_, h.movable_unit, h.stuck, ?_, h.dead_closed⟩
  · intro x
    have hx := h.load_eq x
    by_cases he : x = k
    · subst he
      simp only [Function.update_self, if_true]
      simpa using hx
    · have he' : ¬ (some k = some x) := by simpa [eq_comm] using he
      simp only [Function.update_of_ne he, he', if_false]
      simpa using hx
  · intro x
    by_cases he : x = k
    · subst he
      simp only [Function.update_self]
      omega
    · simpa [he] using h.load_le x
  · intro x hx
    have he : x ≠ k := fun he => hkd (he ▸ hx)
    simpa [he] using h.dead_full x hx

/-- After the walk the row itself fills the hole. -/
theorem inv_fill {st : MatchState K} {k : K} (sid : Int) (h : Inv cap T (some k) st) (hk : k ∈ own)
    (hT : own ∈ T) (hkd : k ∉ st.dead) :
    Inv cap T none
      { st with matched := insert sid st.matched, units := addUnit st.units own k,
                movable := if 1 < own.length then addMovable st.movable k own else st.movable } := by
  have hunit : ∀ t x, 0 < addUnit st.units own k t x → 0 < st.units t x ∨ (t = own ∧ x = k) := by
    intro t x hx
    rw [addUnit_apply] at hx
    by_cases hc : t = own ∧ x = k
    · exact Or.inr hc
    · simp only [hc, if_false] at hx
      exact Or.inl (by omega)
  have hmono : ∀ t x, 0 < st.units t x → 0 < addUnit st.units own k t x := by
    intro t x hx
    rw [addUnit_apply]
    omega
  constructor
  · intro t x hx
    rcases hunit t x hx with hx | ⟨rfl, rfl⟩
    · exact h.unit_mem t x hx
    · exact ⟨hT, hk⟩
  · intro x
    change st.load x = ∑ t ∈ T, addUnit st.units own k t x + _
    rw [sum_types_addUnit T _ own k x hT, h.load_eq x]
    by_cases he : x = k
    · simp [he]
    · have he' : ¬ k = x := fun h => he h.symm
      simp [he, he']
  · exact h.load_le
  · intro t x hx
    change t ∈ (if 1 < own.length then addMovable st.movable k own else st.movable) x at hx
    split at hx
    · rcases (mem_addMovable _ _ _ _ _).mp hx with hx | ⟨rfl, rfl⟩
      · exact hmono t x (h.movable_unit t x hx)
      · simp
    · exact hmono t x (h.movable_unit t x hx)
  · intro t x hx
    change t ∈ (if 1 < own.length then addMovable st.movable k own else st.movable) x ∨ _
    rcases hunit t x hx with hx | ⟨rfl, rfl⟩
    · rcases h.stuck t x hx with hm | hd
      · left
        split
        · exact (mem_addMovable _ _ _ _ _).mpr (Or.inl hm)
        · exact hm
      · exact Or.inr hd
    · by_cases hlen : 1 < t.length
      · left
        rw [if_pos hlen]
        exact (mem_addMovable _ _ _ _ _).mpr (Or.inr ⟨rfl, rfl⟩)
      · right
        obtain ⟨a, rfl⟩ : ∃ a, t = [a] := List.length_eq_one_iff.mp (by
          have := List.length_pos_of_mem hk
          omega)
        intro y hy hne
        simp only [List.mem_singleton] at hk hy
        exact absurd (hy.trans hk.symm) hne
  · exact h.dead_full
  · intro x hx t ht
    rcases hunit t x ht with ht | ⟨rfl, rfl⟩
    · exact h.dead_closed x hx t ht
    · exact absurd hx hkd

/-- The invariant between two rows of the loop. -/
structure RowsInv (cap : K → Nat) (T : Finset (List K)) (rows : List (Int × List K))
    (st : MatchState K) : Prop where
  inv : Inv cap T none st
  counts : Counts rows st
  listed : ∀ sid ∈ st.matched, sid ∈ rows.map Prod.fst
  blocked : st.spent = false → ∀ r ∈ rows, r.1 ∉ st.matched → ∀ k ∈ r.2, k ∈ st.dead

theorem rowsInv_initial : RowsInv cap T [] initial := by
  refine ⟨inv_initial cap T, fun t => ?_, ?_, ?_⟩ <;> simp [initial]

variable {rows : List (Int × List K)} {sid : Int}

/-- Counting the matched rows of one type after a further, matched row. -/
theorem filter_snoc_matched {matched : Finset Int}
    (hsid : sid ∉ rows.map Prod.fst) (t : List K) :
    ((rows ++ [(sid, own)]).filter (fun r => r.1 ∈ insert sid matched ∧ r.2 = t)).length =
      (rows.filter (fun r => r.1 ∈ matched ∧ r.2 = t)).length + (if t = own then 1 else 0) := by
  have hsame : rows.filter (fun r => r.1 ∈ insert sid matched ∧ r.2 = t) =
      rows.filter (fun r => r.1 ∈ matched ∧ r.2 = t) := by
    apply List.filter_congr
    intro r hr
    have hne : r.1 ≠ sid := fun he => hsid (he ▸ List.mem_map_of_mem hr)
    simp [hne]
  rw [List.filter_append, List.length_append, hsame]
  congr 1
  by_cases ht : t = own
  · simp [ht]
  · simp [ht, eq_comm]

/-- A row that stays unmatched changes no count. -/
theorem filter_snoc_unmatched {matched : Finset Int}
    (hsid : sid ∉ matched) (t : List K) :
    ((rows ++ [(sid, own)]).filter (fun r => r.1 ∈ matched ∧ r.2 = t)).length =
      (rows.filter (fun r => r.1 ∈ matched ∧ r.2 = t)).length := by
  rw [List.filter_append, List.length_append]
  simp [hsid]

/-- A row with a free key at the end of its path is matched, and every row
matched before it stays matched. -/
theorem place_spec {st : MatchState K} (st' : MatchState K) {found : K}
    (parent : List (K × Option (List K × K))) (h : RowsInv cap T rows st) (hsid : sid ∉ rows.map Prod.fst)
    (hT : own ∈ T) (hinv : Inv cap T none st') (hunits : st'.units = st.units)
    (hmatched : st'.matched = st.matched) (hdead : st.spent = false → st.dead ⊆ st'.dead)
    (hspent : st'.spent = false → st.spent = false) (hfree : st'.load found < cap found)
    (hpath : found ∈ own ∧ parent = [] ∨ ∃ pre e post, parent = pre ++ (found, e) :: post ∧
      (parent.map Prod.fst).Nodup ∧ ∀ p k f q, parent = p ++ (k, f) :: q → Entry own st' p k f) :
    RowsInv cap T (rows ++ [(sid, own)]) (place sid own parent found st') ∧
    (place sid own parent found st').matched = insert sid st.matched ∧
    (place sid own parent found st').spent = st'.spent := by
  have hload := inv_load hinv hfree
  have hfd : found ∉ st'.dead := fun hd => by have := hinv.dead_full found hd; omega
  set st1 : MatchState K := { st' with load := Function.update st'.load found (st'.load found + 1) } with hst1
  have hshift : Inv cap T (some (shift parent parent.length st1 found).2) (shift parent parent.length st1 found).1 ∧
      (shift parent parent.length st1 found).2 ∈ own ∧
      (shift parent parent.length st1 found).2 ∉ st1.dead ∧
      Shifted st1 (shift parent parent.length st1 found).1 := by
    rcases hpath with ⟨hown, rfl⟩ | ⟨pre, e, post, hp, hnd, hent⟩
    · exact ⟨hload, hown, hfd, ⟨rfl, rfl, rfl, rfl, fun _ => rfl⟩⟩
    · refine shift_spec hnd parent.length pre found e post st1 hp (by rw [hp]; simp) hload hfd ?_
      intro p k f q hsplit
      have hold := hent p k f (q ++ post) (by
        rw [hp]
        have := congrArg (fun l => l ++ post) hsplit
        simpa using this)
      exact hold.mono rfl (fun _ _ hd => hd)
  generalize hr : shift parent parent.length st1 found = r at hshift
  obtain ⟨hri, hro, hrd, hrs⟩ := hshift
  have hplace : place sid own parent found st' =
      { r.1 with matched := insert sid r.1.matched, units := addUnit r.1.units own r.2,
                 movable := if 1 < own.length then addMovable r.1.movable r.2 own else r.1.movable } := by
    unfold place
    simp only [← hst1, hr]
    split <;> rfl
  have hm : r.1.matched = st.matched := hrs.matched.trans hmatched
  rw [hplace]
  refine ⟨⟨inv_fill sid hri hro hT (by rw [hrs.dead]; exact hrd), ?_, ?_, ?_⟩, ?_, hrs.spent⟩
  · intro t
    change ∑ k ∈ t.toFinset, addUnit r.1.units own r.2 t k = _
    rw [sum_keys_addUnit _ own t r.2 hro, hrs.counts t]
    change ∑ k ∈ t.toFinset, st'.units t k + _ = _
    rw [hunits, h.counts t, hm]
    exact (filter_snoc_matched hsid t).symm
  · intro x hx
    rw [List.map_append, List.mem_append]
    change x ∈ insert sid r.1.matched at hx
    rcases mem_insert.mp hx with rfl | hx
    · exact Or.inr (by simp)
    · exact Or.inl (h.listed x (hm ▸ hx))
  · intro hs x hx hnot k hk
    change r.1.spent = false at hs
    change x.1 ∉ insert sid r.1.matched at hnot
    change k ∈ r.1.dead
    rw [hrs.spent] at hs
    rw [hm] at hnot
    rw [hrs.dead]
    rcases List.mem_append.mp hx with hx | hx
    · have hold := hspent hs
      exact hdead hold (h.blocked hold x hx (fun hmem => hnot (mem_insert_of_mem hmem)) k hk)
    · rw [List.mem_singleton] at hx
      subst hx
      exact absurd (mem_insert_self _ _) hnot
  · exact congrArg (insert sid) hm

/-- A row that is left unmatched with all its keys dead, or after the budget is spent. -/
theorem rowsInv_skip {st st' : MatchState K}
    (h : RowsInv cap T rows st) (hsid : sid ∉ rows.map Prod.fst) (hinv : Inv cap T none st')
    (hunits : st'.units = st.units) (hmatched : st'.matched = st.matched)
    (hdead : st'.spent = false → st.dead ⊆ st'.dead ∧ ∀ k ∈ own, k ∈ st'.dead)
    (hspent : st'.spent = false → st.spent = false) :
    RowsInv cap T (rows ++ [(sid, own)]) st' := by
  have hnot : sid ∉ st.matched := fun hm => hsid (h.listed sid hm)
  refine ⟨hinv, fun t => ?_, fun x hx => ?_, fun hs x hx hxm k hk => ?_⟩
  · rw [hunits, hmatched, h.counts t, filter_snoc_unmatched hnot t]
  · rw [List.map_append, List.mem_append]
    exact Or.inl (h.listed x (hmatched ▸ hx))
  · rcases List.mem_append.mp hx with hx | hx
    · exact (hdead hs).1 (h.blocked (hspent hs) x hx (hmatched ▸ hxm) k hk)
    · rw [List.mem_singleton] at hx
      subst hx
      exact (hdead hs).2 k hk

/-- One pass of the loop. -/
theorem matchRow_spec (budget : Nat) {fuel : Nat} (hT : ∀ t ∈ T, ∀ x ∈ t, x ∈ keys) (hfuel : keys.card ≤ fuel)
    {st : MatchState K} (h : RowsInv cap T rows st)
    (hsid : sid ∉ rows.map Prod.fst) (hown : own ∈ T) (hnodup : own.Nodup) :
    RowsInv cap T (rows ++ [(sid, own)]) (matchRow cap budget fuel st (sid, own)) ∧
    ((matchRow cap budget fuel st (sid, own)).matched = insert sid st.matched ∨
      (matchRow cap budget fuel st (sid, own)).matched = st.matched) ∧
    ((matchRow cap budget fuel st (sid, own)).spent = false → st.spent = false) := by
  rw [matchRow]
  cases hfind : own.find? (fun k => st.load k < cap k) with
  | some k =>
    have hk := List.mem_of_find?_eq_some hfind
    have hfree : st.load k < cap k := by simpa using List.find?_some hfind
    obtain ⟨h1, h2, h3⟩ := place_spec st [] h hsid hown h.inv rfl rfl
      (fun _ => Finset.Subset.refl _) id hfree (Or.inl ⟨hk, rfl⟩)
    exact ⟨h1, Or.inl h2, fun hs => by rwa [h3] at hs⟩
  | none =>
    have hfull : ∀ k ∈ own, k ∈ keys ∧ st.load k = cap k := by
      intro k hk
      have hnot := List.find?_eq_none.mp hfind k hk
      have hle := h.inv.load_le k
      simp only [decide_eq_true_eq] at hnot
      exact ⟨hT own hown k hk, by omega⟩
    simp only
    split
    · rename_i hskip
      refine ⟨rowsInv_skip h hsid h.inv rfl rfl (fun hs => ⟨Finset.Subset.refl _, ?_⟩) id, Or.inr rfl, id⟩
      rcases hskip with hnil | hsp
      · rw [hnil]; simp
      · rw [hs] at hsp; cases hsp
    · rename_i hgo
      have hsp : st.spent = false := by
        cases hs : st.spent with
        | false => rfl
        | true => exact absurd (Or.inr hs) hgo
      obtain ⟨hinv, hsound, hdead, hload, hunits, hm, hend⟩ :=
        search_spec budget hT h.inv hsp hfull hnodup hfuel
      generalize search cap budget fuel own st = s at hinv hsound hdead hload hunits hm hend
      cases hf : s.found with
      | none =>
        exact ⟨rowsInv_skip h hsid hinv hunits hm (fun hs => ⟨hdead, hend hf hs⟩) (fun _ => hsp),
          Or.inr hm, fun _ => hsp⟩
      | some k =>
        have hs := hsound k hf
        obtain ⟨hv, hfree⟩ := hs.free k hf
        obtain ⟨⟨k', e⟩, hmem, rfl⟩ := List.mem_map.mp hv
        obtain ⟨pre, post, hp⟩ := List.append_of_mem hmem
        obtain ⟨h1, h2, h3⟩ := place_spec s.toMatchState s.parent h hsid hown hinv hunits hm
          (fun _ => hdead) (fun _ => hsp) hfree (Or.inr ⟨pre, e, post, hp, hs.nodup, hs.entry⟩)
        exact ⟨h1, Or.inl h2, fun _ => hsp⟩

/-- The loop over further rows: the invariant grows with the rows, and the rows
already decided keep their decision. -/
theorem matchRows_foldl (budget : Nat) {fuel : Nat} (hT : ∀ t ∈ T, ∀ x ∈ t, x ∈ keys) (hfuel : keys.card ≤ fuel)
    (rest : List (Int × List K)) : ∀ (rows : List (Int × List K)) (st : MatchState K),
      RowsInv cap T rows st → ((rows ++ rest).map Prod.fst).Nodup →
      (∀ r ∈ rest, r.2 ∈ T ∧ r.2.Nodup) →
      RowsInv cap T (rows ++ rest) (rest.foldl (matchRow cap budget fuel) st) ∧
      (∀ sid ∈ rows.map Prod.fst, sid ∈ (rest.foldl (matchRow cap budget fuel) st).matched ↔ sid ∈ st.matched) ∧
      ((rest.foldl (matchRow cap budget fuel) st).spent = false → st.spent = false) := by
  induction rest with
  | nil =>
    intro rows st h _ _
    rw [List.append_nil]
    exact ⟨h, fun _ _ => Iff.rfl, id⟩
  | cons r rest ih =>
    intro rows st h hnd hr
    obtain ⟨sid, own⟩ := r
    have hnd' : ((rows ++ [(sid, own)] ++ rest).map Prod.fst).Nodup := by simpa using hnd
    have hsid : sid ∉ rows.map Prod.fst := by
      intro hm
      rw [List.map_append, List.nodup_append] at hnd
      exact hnd.2.2 sid hm sid (by simp) rfl
    obtain ⟨hown, hon⟩ := hr (sid, own) (by simp)
    obtain ⟨h1, h2, h3⟩ := matchRow_spec budget hT hfuel h hsid hown hon
    obtain ⟨h4, h5, h6⟩ := ih (rows ++ [(sid, own)]) _ h1 hnd' (fun x hx => hr x (List.mem_cons_of_mem _ hx))
    rw [List.foldl_cons]
    refine ⟨by simpa using h4, fun x hx => ?_, fun hs => h3 (h6 hs)⟩
    rw [h5 x (by rw [List.map_append]; exact List.mem_append_left _ hx)]
    rcases h2 with h2 | h2
    · have hne : x ≠ sid := fun he => hsid (he ▸ hx)
      rw [h2, mem_insert]
      exact or_iff_right hne
    · rw [h2]

/-- The matched rows whose type is in a set of types, counted one type at a time. -/
theorem length_filter_types (matched : Finset Int) (S : Finset (List K)) (rows : List (Int × List K)) :
    (rows.filter (fun r => r.1 ∈ matched ∧ r.2 ∈ S)).length =
      ∑ t ∈ S, (rows.filter (fun r => r.1 ∈ matched ∧ r.2 = t)).length := by
  induction rows with
  | nil => simp
  | cons r rows ih =>
    simp only [List.filter_cons]
    by_cases hm : r.1 ∈ matched
    · by_cases hS : r.2 ∈ S
      · have hsum : ∀ t, (if r.2 = t then r :: rows.filter (fun r => r.1 ∈ matched ∧ r.2 = t)
            else rows.filter (fun r => r.1 ∈ matched ∧ r.2 = t)).length =
            (rows.filter (fun r => r.1 ∈ matched ∧ r.2 = t)).length + (if t = r.2 then 1 else 0) := by
          intro t
          by_cases ht : r.2 = t
          · simp [ht]
          · have ht' : ¬ t = r.2 := fun h => ht h.symm
            simp [ht, ht']
        simp only [hm, hS, and_self, decide_true, if_true, true_and, decide_eq_true_eq, hsum,
          List.length_cons, sum_add_distrib, sum_ite_eq', ih]
      · have hne : ∀ t ∈ S, ¬ r.2 = t := fun t ht he => hS (he ▸ ht)
        simp only [hm, hS, and_false, decide_false, Bool.false_eq_true, if_false, true_and,
          decide_eq_true_eq, ih]
        exact sum_congr rfl (fun t ht => by rw [if_neg (hne t ht)])
    · simp only [hm, false_and, decide_false, Bool.false_eq_true, if_false, ih]

/-- The dead keys are filled exactly by the matched rows that have no other key. -/
theorem dead_filled {st : MatchState K} (h : RowsInv cap T rows st)
    (hrows : ∀ r ∈ rows, r.2 ∈ T) :
    (rows.filter (fun r => r.1 ∈ st.matched ∧ ∀ k ∈ r.2, k ∈ st.dead)).length = ∑ k ∈ st.dead, cap k := by
  have hcongr : rows.filter (fun r => r.1 ∈ st.matched ∧ ∀ k ∈ r.2, k ∈ st.dead) =
      rows.filter (fun r => r.1 ∈ st.matched ∧ r.2 ∈ T.filter (fun t => ∀ k ∈ t, k ∈ st.dead)) := by
    apply List.filter_congr
    intro r hr
    simp [hrows r hr]
  rw [hcongr, length_filter_types]
  calc ∑ t ∈ T.filter (fun t => ∀ k ∈ t, k ∈ st.dead), (rows.filter (fun r => r.1 ∈ st.matched ∧ r.2 = t)).length
      = ∑ t ∈ T.filter (fun t => ∀ k ∈ t, k ∈ st.dead), ∑ k ∈ st.dead, st.units t k := by
        apply sum_congr rfl
        intro t ht
        obtain ⟨-, htd⟩ := mem_filter.mp ht
        rw [← h.counts t]
        apply sum_subset
        · intro k hk
          exact htd k (List.mem_toFinset.mp hk)
        · intro k _ hk
          by_contra hne
          exact hk (List.mem_toFinset.mpr (h.inv.unit_mem t k (Nat.pos_of_ne_zero hne)).2)
    _ = ∑ t ∈ T, ∑ k ∈ st.dead, st.units t k := by
        apply sum_subset (filter_subset _ _)
        intro t htT ht
        apply sum_eq_zero
        intro k hk
        by_contra hne
        exact ht (mem_filter.mpr ⟨htT, h.inv.dead_closed k hk t (Nat.pos_of_ne_zero hne)⟩)
    _ = ∑ k ∈ st.dead, ∑ t ∈ T, st.units t k := sum_comm
    _ = ∑ k ∈ st.dead, cap k := by
        apply sum_congr rfl
        intro k hk
        rw [← h.inv.dead_full k hk, h.inv.load_eq k]
        simp

end RecognitionMatching
