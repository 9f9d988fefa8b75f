import LcmX.Lib.Bipartite
import LcmX.MatchingRows

/-!
# The returned map is a maximum matching

The counts are turned into an assignment, and the dead keys of the last row are
the certificate that no matching is larger. Each unmatched row carries its own
certificate: the dead keys at its turn.
-/
namespace RecognitionMatching

open Finset Bipartite

variable {K O ρ : Type} [DecidableEq K]

/-- The final loop never runs out of keys or occurrences. The induction is on the
rows still to be served; `given` has been handed out so far. -/
theorem assign_spec {T : Finset (List K)} {slots : K → List O} (st : MatchState K)
    (hinj : ∀ (k : K) (i : Nat) (k' : K) (j : Nat) (o : O),
      (slots k)[i]? = some o → (slots k')[j]? = some o → k = k' ∧ i = j)
    (hload : ∀ k, ∑ t ∈ T, st.units t k ≤ (slots k).length) (rest : List (Int × List K)) :
    ∀ (given : List K → K → Nat) (taken : K → Nat), (∀ r ∈ rest, r.2 ∈ T) →
      (∀ t k, given t k ≤ st.units t k) →
      (∀ t, ∑ k ∈ t.toFinset, given t k + (rest.filter (fun r => r.1 ∈ st.matched ∧ r.2 = t)).length =
        ∑ k ∈ t.toFinset, st.units t k) →
      (∀ k, taken k = ∑ t ∈ T, given t k) →
      ∃ out, assign slots st rest given taken = some out ∧
        out.map Prod.fst = (rest.filter (fun r => r.1 ∈ st.matched)).map Prod.fst ∧
        (out.map Prod.snd).Nodup ∧
        ∀ p ∈ out, ∃ kind k i, (p.1, kind) ∈ rest ∧ k ∈ kind ∧ taken k ≤ i ∧ (slots k)[i]? = some p.2 := by
  induction rest with
  | nil => exact fun _ _ _ _ _ _ => ⟨[], by simp [assign]⟩
  | cons r rest ih =>
    obtain ⟨sid, kind⟩ := r
    intro given taken hT hle hcount htaken
    have hkT : kind ∈ T := hT (sid, kind) (by simp)
    have hT' : ∀ r ∈ rest, r.2 ∈ T := fun r hr => hT r (List.mem_cons_of_mem _ hr)
    rw [assign]
    by_cases hm : sid ∈ st.matched
    · simp only [hm, if_true]
      have hlt : ∑ k ∈ kind.toFinset, given kind k < ∑ k ∈ kind.toFinset, st.units kind k := by
        rw [← hcount kind]
        simp [hm]
      obtain ⟨k0, hk0, hlt0⟩ := exists_lt_of_sum_lt hlt
      cases hfind : kind.find? (fun k => given kind k < st.units kind k) with
      | none =>
        have := List.find?_eq_none.mp hfind k0 (List.mem_toFinset.mp hk0)
        simp [hlt0] at this
      | some k =>
        have hk := List.mem_of_find?_eq_some hfind
        have hfree : given kind k < st.units kind k := by simpa using List.find?_some hfind
        have hidx : taken k < (slots k).length := by
          rw [htaken k]
          exact Nat.lt_of_lt_of_le (sum_lt_sum (fun t _ => hle t k) ⟨kind, hkT, hfree⟩) (hload k)
        obtain ⟨o, ho⟩ : ∃ o, (slots k)[taken k]? = some o := ⟨_, List.getElem?_eq_getElem hidx⟩
        obtain ⟨out, h1, h2, h3, h4⟩ := ih (addUnit given kind k) (Function.update taken k (taken k + 1)) hT'
          (by
            intro t x
            rw [addUnit_apply]
            by_cases hc : t = kind ∧ x = k
            · obtain ⟨rfl, rfl⟩ := hc
              simp only [and_self, if_true]
              omega
            · simpa [hc] using hle t x)
          (by
            intro t
            rw [sum_keys_addUnit given kind t k hk, ← hcount t]
            by_cases ht : t = kind
            · subst ht
              simp [hm]
              omega
            · have ht' : ¬ kind = t := fun h => ht h.symm
              simp [ht, ht'])
          (by
            intro x
            rw [sum_types_addUnit T given kind k x hkT, ← htaken x]
            by_cases hx : x = k
            · subst hx; simp
            · simp [hx])
        refine ⟨(sid, o) :: out, ?_, ?_, ?_, ?_⟩
        · simp only [ho, h1, Option.map_some]
        · simp [hm, h2]
        · rw [List.map_cons, List.nodup_cons]
          refine ⟨fun hmem => ?_, h3⟩
          obtain ⟨p, hp, hpo⟩ := List.mem_map.mp hmem
          obtain ⟨_, k', i, _, _, hi, hget⟩ := h4 p hp
          obtain ⟨rfl, rfl⟩ := hinj k' i k (taken k) o (by rw [hget, hpo]) ho
          simp at hi
        · intro p hp
          rcases List.mem_cons.mp hp with rfl | hp
          · exact ⟨kind, k, taken k, by simp, hk, Nat.le_refl _, ho⟩
          · obtain ⟨kind', k', i, hmem, hk', hi, hget⟩ := h4 p hp
            refine ⟨kind', k', i, List.mem_cons_of_mem _ hmem, hk', ?_, hget⟩
            by_cases hx : k' = k
            · subst hx
              rw [Function.update_self] at hi
              omega
            · rwa [Function.update_of_ne hx] at hi
    · simp only [hm, if_false]
      obtain ⟨out, h1, h2, h3, h4⟩ := ih given taken hT' hle
        (by intro t; rw [← hcount t]; simp [hm]) htaken
      refine ⟨out, h1, by simp [hm, h2], h3, fun p hp => ?_⟩
      obtain ⟨kind', k', i, hmem, hrest⟩ := h4 p hp
      exact ⟨kind', k', i, List.mem_cons_of_mem _ hmem, hrest⟩

/-! ## The keys of the rows -/

theorem mem_addKeys (s ks : List K) (k : K) : k ∈ addKeys s ks ↔ k ∈ s ∨ k ∈ ks := by
  induction ks generalizing s with
  | nil => simp [addKeys]
  | cons x ks ih =>
    have hstep : addKeys s (x :: ks) = addKeys (if x ∈ s then s else s ++ [x]) ks := rfl
    rw [hstep, ih]
    by_cases hx : x ∈ s
    · rw [if_pos hx]
      constructor
      · exact fun h => h.imp_right (List.mem_cons_of_mem _)
      · rintro (h | h)
        · exact Or.inl h
        · rcases List.mem_cons.mp h with rfl | h
          · exact Or.inl hx
          · exact Or.inr h
    · simp [hx, or_assoc]

theorem addKeys_nodup (s ks : List K) (h : s.Nodup) : (addKeys s ks).Nodup := by
  induction ks generalizing s with
  | nil => exact h
  | cons x ks ih =>
    have hstep : addKeys s (x :: ks) = addKeys (if x ∈ s then s else s ++ [x]) ks := rfl
    rw [hstep]
    apply ih
    by_cases hx : x ∈ s
    · rwa [if_pos hx]
    · rw [if_neg hx, List.nodup_append]
      refine ⟨h, by simp, ?_⟩
      intro a ha b hb hab
      rw [List.mem_singleton] at hb
      exact hx (by rw [← hb, ← hab]; exact ha)

theorem mergeRow_fst (sid : Int) (ks : List K) (m : List (Int × List K)) :
    (mergeRow sid ks m).map Prod.fst =
      if sid ∈ m.map Prod.fst then m.map Prod.fst else m.map Prod.fst ++ [sid] := by
  induction m with
  | nil => simp [mergeRow]
  | cons r m ih =>
    obtain ⟨sid', s⟩ := r
    rw [mergeRow]
    by_cases h : sid' = sid
    · subst h; simp
    · have h' : ¬ sid = sid' := fun he => h he.symm
      simp only [h, if_false, List.map_cons, ih, List.mem_cons, h', false_or]
      split <;> rfl

/-- What a listing adds: its keys, to the entry of its store id. -/
theorem mem_mergeRow (sid : Int) (ks : List K) (m : List (Int × List K)) (hnd : (m.map Prod.fst).Nodup)
    (r : Int × List K) (hr : r ∈ mergeRow sid ks m) :
    (r.1 ≠ sid ∧ r ∈ m) ∨
      (r.1 = sid ∧ ((∃ s, (sid, s) ∈ m ∧ r.2 = addKeys s ks) ∨ (sid ∉ m.map Prod.fst ∧ r.2 = addKeys [] ks))) := by
  induction m with
  | nil =>
    simp only [mergeRow, List.mem_singleton] at hr
    subst hr
    exact Or.inr ⟨rfl, Or.inr ⟨by simp, rfl⟩⟩
  | cons x m ih =>
    obtain ⟨sid', s⟩ := x
    simp only [List.map_cons, List.nodup_cons] at hnd
    rw [mergeRow] at hr
    by_cases h : sid' = sid
    · subst h
      rw [if_pos rfl] at hr
      rcases List.mem_cons.mp hr with rfl | hr
      · exact Or.inr ⟨rfl, Or.inl ⟨s, by simp, rfl⟩⟩
      · exact Or.inl ⟨fun he => hnd.1 (he ▸ List.mem_map_of_mem hr), List.mem_cons_of_mem _ hr⟩
    · rw [if_neg h] at hr
      rcases List.mem_cons.mp hr with rfl | hr
      · exact Or.inl ⟨h, by simp⟩
      · rcases ih hnd.2 hr with ⟨h1, h2⟩ | ⟨h1, ⟨s', h2, h3⟩ | ⟨h2, h3⟩⟩
        · exact Or.inl ⟨h1, List.mem_cons_of_mem _ h2⟩
        · exact Or.inr ⟨h1, Or.inl ⟨s', List.mem_cons_of_mem _ h2, h3⟩⟩
        · refine Or.inr ⟨h1, Or.inr ⟨?_, h3⟩⟩
          rw [List.map_cons, List.mem_cons]
          rintro (he | he)
          · exact h he.symm
          · exact h2 he

theorem merged_snoc (storeId : ρ → Int) (keysOf : ρ → List K) (rows : List ρ) (row : ρ) :
    merged storeId keysOf (rows ++ [row]) =
      mergeRow (storeId row) (keysOf row) (merged storeId keysOf rows) := by
  simp [merged]

/-- The store ids of `merged`, in order of first appearance. -/
theorem merged_fst (storeId : ρ → Int) (keysOf : ρ → List K) (rows : List ρ) :
    (merged storeId keysOf rows).map Prod.fst = (rows.map storeId).eraseDups := by
  induction rows using List.reverseRecOn with
  | nil => simp [merged]
  | append_singleton rows row ih =>
    rw [merged_snoc, mergeRow_fst, ih, List.map_append, List.eraseDups_append]
    by_cases h : storeId row ∈ (rows.map storeId).eraseDups
    · have h' : storeId row ∈ rows.map storeId := by simpa using h
      have hrem : (List.map storeId [row]).removeAll (rows.map storeId) = [] := by
        simpa [List.removeAll, List.filter_cons] using h'
      rw [if_pos h, hrem]
      simp
    · have h' : ¬ storeId row ∈ rows.map storeId := by simpa using h
      have hrem : (List.map storeId [row]).removeAll (rows.map storeId) = [storeId row] := by
        simpa [List.removeAll, List.filter_cons] using h'
      rw [if_neg h, hrem]
      simp [List.eraseDups_cons]

theorem merged_nodup (storeId : ρ → Int) (keysOf : ρ → List K) (rows : List ρ) :
    ((merged storeId keysOf rows).map Prod.fst).Nodup := by
  induction rows using List.reverseRecOn with
  | nil => simp [merged]
  | append_singleton rows row ih =>
    rw [merged_snoc, mergeRow_fst]
    split
    · exact ih
    · rename_i h
      rw [List.nodup_append]
      refine ⟨ih, by simp, ?_⟩
      intro a ha b hb hab
      rw [List.mem_singleton] at hb
      exact h (by rw [← hb, ← hab]; exact ha)

/-- The keys collected for a store id are those of its listings, each once. -/
theorem mem_merged (storeId : ρ → Int) (keysOf : ρ → List K) (rows : List ρ) (r : Int × List K)
    (hr : r ∈ merged storeId keysOf rows) :
    r.2.Nodup ∧ ∀ k, k ∈ r.2 ↔ ∃ row ∈ rows, storeId row = r.1 ∧ k ∈ keysOf row := by
  induction rows using List.reverseRecOn generalizing r with
  | nil => simp [merged] at hr
  | append_singleton rows row ih =>
    have hfst := merged_fst storeId keysOf rows
    rw [merged_snoc] at hr
    have hlast : ∀ k, (∃ row' ∈ rows ++ [row], storeId row' = r.1 ∧ k ∈ keysOf row') ↔
        (∃ row' ∈ rows, storeId row' = r.1 ∧ k ∈ keysOf row') ∨ (storeId row = r.1 ∧ k ∈ keysOf row) := by
      intro k
      simp only [List.mem_append, List.mem_singleton, or_and_right, exists_or, exists_eq_left]
    simp only [hlast]
    rcases mem_mergeRow _ _ _ (merged_nodup storeId keysOf rows) r hr with
      ⟨hne, hm⟩ | ⟨he, ⟨s, hm, hs⟩ | ⟨hnot, hs⟩⟩
    · obtain ⟨h1, h2⟩ := ih r hm
      refine ⟨h1, fun k => (h2 k).trans ?_⟩
      have hne' : ¬ storeId row = r.1 := fun h => hne h.symm
      simp [hne']
    · obtain ⟨h1, h2⟩ := ih _ hm
      rw [hs]
      refine ⟨addKeys_nodup _ _ h1, fun k => ?_⟩
      rw [mem_addKeys, h2 k, he]
      simp
    · rw [hs]
      refine ⟨addKeys_nodup _ _ (by simp), fun k => ?_⟩
      rw [mem_addKeys, he]
      have hnone : ¬ ∃ row' ∈ rows, storeId row' = storeId row ∧ k ∈ keysOf row' := by
        rintro ⟨row', hmem, hid, -⟩
        apply hnot
        rw [hfst]
        simp only [List.mem_eraseDups, List.mem_map]
        exact ⟨row', hmem, hid⟩
      simp [hnone]

theorem mem_slotKeys (occurrences : List (O × K)) (k : K) :
    k ∈ slotKeys occurrences ↔ ∃ o, (o, k) ∈ occurrences := by
  simp [slotKeys]

theorem mem_kindOf (repr : K → String) (occurrences : List (O × K)) (ks : List K) (k : K) :
    k ∈ kindOf repr occurrences ks ↔ k ∈ ks ∧ ∃ o, (o, k) ∈ occurrences := by
  rw [kindOf, List.mem_insertionSort, List.mem_filter, decide_eq_true_eq, mem_slotKeys]

theorem kindOf_nodup (repr : K → String) (occurrences : List (O × K)) (ks : List K) (h : ks.Nodup) :
    (kindOf repr occurrences ks).Nodup :=
  (List.perm_insertionSort _ _).nodup_iff.mpr (h.filter _)

/-- With distinct labels a place in the slots determines its key and position. -/
theorem slots_inj {occurrences : List (O × K)} (hlabels : (occurrences.map Prod.fst).Nodup) (k : K) (i : Nat)
    (k' : K) (j : Nat) (o : O) (h : (slots occurrences k)[i]? = some o)
    (h' : (slots occurrences k')[j]? = some o) : k = k' ∧ i = j := by
  have hmem : ∀ k, o ∈ slots occurrences k → (o, k) ∈ occurrences := by
    intro k ho
    simp only [slots, List.mem_map, List.mem_filter, decide_eq_true_eq] at ho
    obtain ⟨p, ⟨hp, rfl⟩, rfl⟩ := ho
    exact hp
  have hk : k = k' := by
    have h1 := hmem k (List.mem_of_getElem? h)
    have h2 := hmem k' (List.mem_of_getElem? h')
    exact congrArg Prod.snd (List.inj_on_of_nodup_map hlabels h1 h2 rfl)
  subst hk
  refine ⟨rfl, ?_⟩
  have hnd : (slots occurrences k).Nodup := (List.filter_sublist.map Prod.fst).nodup hlabels
  obtain ⟨hi, rfl⟩ := List.getElem?_eq_some_iff.mp h
  obtain ⟨hj, he⟩ := List.getElem?_eq_some_iff.mp h'
  exact (List.Nodup.getElem_inj_iff hnd).mp he.symm

/-- The occurrences of a set of keys, counted one key at a time. -/
theorem length_filter_keys (occurrences : List (O × K)) (D : Finset K) :
    (occurrences.filter (fun x => x.2 ∈ D)).length = ∑ k ∈ D, (slots occurrences k).length := by
  simp only [slots, List.length_map]
  induction occurrences with
  | nil => simp
  | cons x occurrences ih =>
    have hsum : ∀ k, (if x.2 = k then x :: occurrences.filter (fun y => y.2 = k)
        else occurrences.filter (fun y => y.2 = k)).length =
        (occurrences.filter (fun y => y.2 = k)).length + (if k = x.2 then 1 else 0) := by
      intro k
      by_cases hk : x.2 = k
      · simp [hk]
      · have hk' : ¬ k = x.2 := fun h => hk h.symm
        simp [hk, hk']
    simp only [List.filter_cons, decide_eq_true_eq, hsum, sum_add_distrib, sum_ite_eq', ← ih]
    split <;> simp

/-! ## The matching -/

/-- The key of the occurrence is among the keys of the listings of the row. -/
def Admissible (storeId : ρ → Int) (keysOf : ρ → List K) (rows : List ρ) (occurrences : List (O × K))
    (sid : Int) (o : O) : Prop :=
  ∃ k, (o, k) ∈ occurrences ∧ ∃ row ∈ rows, storeId row = sid ∧ k ∈ keysOf row

section Result

variable (repr : K → String) (storeId : ρ → Int) (keysOf : ρ → List K) (rows : List ρ)
  (occurrences : List (O × K))

theorem kinds_fst : (kinds repr storeId keysOf rows occurrences).map Prod.fst =
    (rows.map storeId).eraseDups := by
  rw [← merged_fst storeId keysOf rows]
  simp [kinds, Function.comp_def]

theorem kinds_nodup : ((kinds repr storeId keysOf rows occurrences).map Prod.fst).Nodup := by
  rw [kinds_fst, ← merged_fst storeId keysOf rows]
  exact merged_nodup storeId keysOf rows

theorem mem_kinds {r : Int × List K} (hr : r ∈ kinds repr storeId keysOf rows occurrences) :
    r.2.Nodup ∧ ∀ k, k ∈ r.2 ↔
      (∃ o, (o, k) ∈ occurrences) ∧ ∃ row ∈ rows, storeId row = r.1 ∧ k ∈ keysOf row := by
  obtain ⟨r', hr', rfl⟩ := List.mem_map.mp hr
  obtain ⟨h1, h2⟩ := mem_merged storeId keysOf rows r' hr'
  refine ⟨kindOf_nodup repr occurrences r'.2 h1, fun k => ?_⟩
  rw [mem_kindOf, h2 k]
  exact and_comm

theorem admissible_iff (sid : Int) (o : O) : Admissible storeId keysOf rows occurrences sid o ↔
    ∃ kind, (sid, kind) ∈ kinds repr storeId keysOf rows occurrences ∧ ∃ k ∈ kind, (o, k) ∈ occurrences := by
  constructor
  · rintro ⟨k, hk, row, hrow, hid, hkey⟩
    have hmem : sid ∈ (kinds repr storeId keysOf rows occurrences).map Prod.fst := by
      rw [kinds_fst, List.mem_eraseDups, List.mem_map]
      exact ⟨row, hrow, hid⟩
    obtain ⟨r, hr, rfl⟩ := List.mem_map.mp hmem
    exact ⟨r.2, hr, k, ((mem_kinds _ _ _ _ _ hr).2 k).mpr ⟨⟨o, hk⟩, row, hrow, hid, hkey⟩, hk⟩
  · rintro ⟨kind, hr, k, hk, ho⟩
    obtain ⟨-, row, hrow, hid, hkey⟩ := ((mem_kinds _ _ _ _ _ hr).2 k).mp hk
    exact ⟨k, ho, row, hrow, hid, hkey⟩

/-- The types of the rows. -/
def typesOf : Finset (List K) := ((kinds repr storeId keysOf rows occurrences).map Prod.snd).toFinset

/-- The loop invariant after any number of rows, and what later rows keep of it. -/
theorem matchPrefix_spec (n : Nat) :
    RowsInv (fun k => (slots occurrences k).length) (typesOf repr storeId keysOf rows occurrences)
      ((kinds repr storeId keysOf rows occurrences).take n)
      (matchPrefix repr storeId keysOf rows occurrences n) ∧
    (∀ sid ∈ ((kinds repr storeId keysOf rows occurrences).take n).map Prod.fst,
      sid ∈ (matchRows repr storeId keysOf rows occurrences).matched ↔
        sid ∈ (matchPrefix repr storeId keysOf rows occurrences n).matched) ∧
    ((matchRows repr storeId keysOf rows occurrences).spent = false →
      (matchPrefix repr storeId keysOf rows occurrences n).spent = false) := by
  set R := kinds repr storeId keysOf rows occurrences with hR
  set cap : K → Nat := fun k => (slots occurrences k).length with hcap
  set budget := matchWorkPerItem * (R.length + occurrences.length + (slotKeys occurrences).length) +
    matchWorkFloor with hbudget
  have hT : ∀ t ∈ typesOf repr storeId keysOf rows occurrences, ∀ x ∈ t,
      x ∈ (slotKeys occurrences).toFinset := by
    intro t ht x hx
    obtain ⟨r, hr, rfl⟩ := List.mem_map.mp (List.mem_toFinset.mp ht)
    rw [List.mem_toFinset, mem_slotKeys]
    exact (((mem_kinds _ _ _ _ _ hr).2 x).mp hx).1
  have hcard : (slotKeys occurrences).toFinset.card ≤ (slotKeys occurrences).length :=
    List.toFinset_card_le _
  have hrows : ∀ r ∈ R, r.2 ∈ typesOf repr storeId keysOf rows occurrences ∧ r.2.Nodup := by
    intro r hr
    exact ⟨List.mem_toFinset.mpr (List.mem_map_of_mem hr), (mem_kinds _ _ _ _ _ hr).1⟩
  have hnd := kinds_nodup repr storeId keysOf rows occurrences
  rw [← hR] at hnd
  have hzero : RowsInv cap (typesOf repr storeId keysOf rows occurrences) [] initial := rowsInv_initial
  have hfirst := matchRows_foldl budget hT hcard (R.take n) [] initial hzero
    (by simpa using hnd.sublist ((List.take_sublist n R).map Prod.fst))
    (fun r hr => hrows r (List.mem_of_mem_take hr))
  have hlater := matchRows_foldl budget hT hcard (R.drop n) (R.take n) _
    hfirst.1 (by simpa using hnd) (fun r hr => hrows r (List.mem_of_mem_drop hr))
  rw [← List.foldl_append, List.take_append_drop] at hlater
  have hall : matchRows repr storeId keysOf rows occurrences =
      R.foldl (matchRow cap budget (slotKeys occurrences).length) initial := by
    simp only [matchRows, matchPrefix, ← hR, List.take_length, hbudget, hcap]
  rw [hall]
  have hinv := hfirst.1
  rw [List.nil_append] at hinv
  exact ⟨hinv, hlater.2.1, hlater.2.2⟩

/-- Rows confined to a set `D` of keys are matched at most as often as `D` has
occurrences, in any matching. -/
theorem confined_le {m : List (Int × O)} (hm : IsMatching (Admissible storeId keysOf rows occurrences) m)
    (D : Finset K) :
    (m.filter (fun x => ∀ r ∈ kinds repr storeId keysOf rows occurrences, r.1 = x.1 → ∀ k ∈ r.2, k ∈ D)).length ≤
      ∑ k ∈ D, (slots occurrences k).length := by
  have h := hm.blocked
    (fun sid => ∀ r ∈ kinds repr storeId keysOf rows occurrences, r.1 = sid → ∀ k ∈ r.2, k ∈ D)
    ((occurrences.filter (fun x => x.2 ∈ D)).map Prod.fst) (by
      intro sid o hadm hconf
      obtain ⟨kind, hkind, k, hk, ho⟩ := (admissible_iff repr storeId keysOf rows occurrences sid o).mp hadm
      have hD := hconf (sid, kind) hkind rfl k hk
      exact List.mem_map.mpr ⟨(o, k), List.mem_filter.mpr ⟨ho, by simpa using hD⟩, rfl⟩)
  rwa [List.length_map, length_filter_keys] at h

theorem kinds_snd_mem {r : Int × List K} (hr : r ∈ kinds repr storeId keysOf rows occurrences) :
    r.2 ∈ typesOf repr storeId keysOf rows occurrences :=
  List.mem_toFinset.mpr (List.mem_map_of_mem hr)

/-- The state after the loop, as the state after all the rows. -/
theorem matchRows_inv : RowsInv (fun k => (slots occurrences k).length)
    (typesOf repr storeId keysOf rows occurrences) (kinds repr storeId keysOf rows occurrences)
    (matchRows repr storeId keysOf rows occurrences) := by
  have h := (matchPrefix_spec repr storeId keysOf rows occurrences
    (kinds repr storeId keysOf rows occurrences).length).1
  rwa [List.take_length] at h

/-- The final loop returns a matching of exactly the rows the search matched. -/
theorem matchOccurrences_matching (hlabels : (occurrences.map Prod.fst).Nodup) :
    ∃ m, matchOccurrences repr storeId keysOf rows occurrences = some m ∧
      IsMatching (Admissible storeId keysOf rows occurrences) m ∧
      m.map Prod.fst = ((kinds repr storeId keysOf rows occurrences).filter
        (fun r => r.1 ∈ (matchRows repr storeId keysOf rows occurrences).matched)).map Prod.fst := by
  have hinv := matchRows_inv repr storeId keysOf rows occurrences
  obtain ⟨m, h1, h2, h3, h4⟩ := assign_spec (matchRows repr storeId keysOf rows occurrences)
    (T := typesOf repr storeId keysOf rows occurrences) (slots_inj hlabels)
    (by
      intro k
      have h := hinv.inv.load_eq k
      simp only [reduceCtorEq, if_false, Nat.add_zero] at h
      rw [← h]
      exact hinv.inv.load_le k)
    (kinds repr storeId keysOf rows occurrences) (fun _ _ => 0) (fun _ => 0)
    (fun r hr => kinds_snd_mem repr storeId keysOf rows occurrences hr) (fun _ _ => Nat.zero_le _)
    (by intro t; rw [hinv.counts t]; simp) (by simp)
  refine ⟨m, h1, ⟨?_, h3, ?_⟩, h2⟩
  · rw [h2]
    exact (List.filter_sublist.map Prod.fst).nodup (kinds_nodup repr storeId keysOf rows occurrences)
  · intro p hp
    obtain ⟨kind, k, i, hmem, hk, -, ho⟩ := h4 p hp
    have hslot : p.2 ∈ slots occurrences k := List.mem_of_getElem? ho
    simp only [slots, List.mem_map, List.mem_filter, decide_eq_true_eq] at hslot
    obtain ⟨x, ⟨hx, rfl⟩, hxo⟩ := hslot
    rw [admissible_iff repr]
    exact ⟨kind, hmem, x.2, hk, by rw [← hxo]; exact hx⟩

theorem mem_matched_rows (sid : Int) :
    sid ∈ ((kinds repr storeId keysOf rows occurrences).filter
        (fun r => r.1 ∈ (matchRows repr storeId keysOf rows occurrences).matched)).map Prod.fst ↔
      sid ∈ (matchRows repr storeId keysOf rows occurrences).matched := by
  simp only [List.mem_map, List.mem_filter, decide_eq_true_eq]
  constructor
  · rintro ⟨r, ⟨-, hr⟩, rfl⟩
    exact hr
  · intro h
    obtain ⟨r, hr, rfl⟩ := List.mem_map.mp ((matchRows_inv repr storeId keysOf rows occurrences).listed sid h)
    exact ⟨r, ⟨hr, h⟩, rfl⟩

/-- The dead keys after the last row bound every matching: the rows confined to
them are at most their occurrences, and all other rows are matched. -/
theorem matching_le (hspent : (matchRows repr storeId keysOf rows occurrences).spent = false)
    {m : List (Int × O)} (hm : IsMatching (Admissible storeId keysOf rows occurrences) m) :
    m.length ≤ ((kinds repr storeId keysOf rows occurrences).filter
        (fun r => r.1 ∈ (matchRows repr storeId keysOf rows occurrences).matched)).length := by
  have hinv := matchRows_inv repr storeId keysOf rows occurrences
  have hfilled := dead_filled hinv (fun r hr => kinds_snd_mem repr storeId keysOf rows occurrences hr)
  have hconf := confined_le repr storeId keysOf rows occurrences hm
    (matchRows repr storeId keysOf rows occurrences).dead
  have hnd := kinds_nodup repr storeId keysOf rows occurrences
  have hblocked := hinv.blocked hspent
  have hadm : ∀ p ∈ m, ∃ kind, (p.1, kind) ∈ kinds repr storeId keysOf rows occurrences := by
    intro p hp
    obtain ⟨kind, hkind, -⟩ := (admissible_iff repr storeId keysOf rows occurrences p.1 p.2).mp (hm.related p hp)
    exact ⟨kind, hkind⟩
  generalize matchRows repr storeId keysOf rows occurrences = st at *
  generalize kinds repr storeId keysOf rows occurrences = R at *
  rw [← hfilled] at hconf
  have hfree : (m.filter (fun x => ¬ ∀ r ∈ R, r.1 = x.1 → ∀ k ∈ r.2, k ∈ st.dead)).length ≤
      (R.filter (fun r => r.1 ∈ st.matched ∧ ¬ ∀ k ∈ r.2, k ∈ st.dead)).length := by
    have hnd' : ((m.filter (fun x => ¬ ∀ r ∈ R, r.1 = x.1 → ∀ k ∈ r.2, k ∈ st.dead)).map Prod.fst).Nodup :=
      (List.filter_sublist.map Prod.fst).nodup hm.left
    have hsub : (m.filter (fun x => ¬ ∀ r ∈ R, r.1 = x.1 → ∀ k ∈ r.2, k ∈ st.dead)).map Prod.fst ⊆
        (R.filter (fun r => r.1 ∈ st.matched ∧ ¬ ∀ k ∈ r.2, k ∈ st.dead)).map Prod.fst := by
      intro sid hsid
      obtain ⟨p, hp, rfl⟩ := List.mem_map.mp hsid
      obtain ⟨hpm, hpn⟩ := List.mem_filter.mp hp
      obtain ⟨kind, hkind⟩ := hadm p hpm
      have hopen : ¬ ∀ k ∈ kind, k ∈ st.dead := by
        intro hall
        apply of_decide_eq_true hpn
        intro r hr he k hk
        have heq : r = (p.1, kind) := List.inj_on_of_nodup_map hnd hr hkind he
        exact hall k (by rw [heq] at hk; exact hk)
      have hin : p.1 ∈ st.matched := by
        by_contra hnot
        exact hopen (hblocked (p.1, kind) hkind hnot)
      exact List.mem_map.mpr ⟨(p.1, kind), List.mem_filter.mpr ⟨hkind, decide_eq_true ⟨hin, hopen⟩⟩, rfl⟩
    simpa using (List.subperm_of_subset hnd' hsub).length_le
  have hsplit := List.length_eq_length_filter_add (l := m)
    (fun x => decide (∀ r ∈ R, r.1 = x.1 → ∀ k ∈ r.2, k ∈ st.dead))
  have hrows := List.length_eq_length_filter_add (l := R.filter (fun r => r.1 ∈ st.matched))
    (fun r => decide (∀ k ∈ r.2, k ∈ st.dead))
  simp only [List.filter_filter] at hrows
  have h1 : R.filter (fun r => decide (∀ k ∈ r.2, k ∈ st.dead) && decide (r.1 ∈ st.matched)) =
      R.filter (fun r => r.1 ∈ st.matched ∧ ∀ k ∈ r.2, k ∈ st.dead) := by
    congr 1; funext r; rw [Bool.decide_and, Bool.and_comm]
  have h2 : R.filter (fun r => (!decide (∀ k ∈ r.2, k ∈ st.dead)) && decide (r.1 ∈ st.matched)) =
      R.filter (fun r => r.1 ∈ st.matched ∧ ¬ ∀ k ∈ r.2, k ∈ st.dead) := by
    congr 1; funext r; rw [Bool.decide_and, Bool.and_comm, decide_not]
  rw [h1, h2] at hrows
  simp only [decide_not] at hfree
  omega

/-- The dead keys at its turn show that a skipped row cannot be added to the
rows matched before it. -/
theorem skipped_not_matchable (hspent : (matchRows repr storeId keysOf rows occurrences).spent = false)
    {pre post : List (Int × List K)} {sid : Int} {kind : List K}
    (hsplit : kinds repr storeId keysOf rows occurrences = pre ++ (sid, kind) :: post)
    (hskip : sid ∉ (matchRows repr storeId keysOf rows occurrences).matched) :
    ¬ Matchable (Admissible storeId keysOf rows occurrences)
      (sid :: (pre.map Prod.fst).filter (fun x => x ∈ (matchRows repr storeId keysOf rows occurrences).matched)) := by
  rintro ⟨m, hm, hcov⟩
  obtain ⟨hinv, hagree, hsp⟩ := matchPrefix_spec repr storeId keysOf rows occurrences (pre.length + 1)
  have htake : (kinds repr storeId keysOf rows occurrences).take (pre.length + 1) = pre ++ [(sid, kind)] := by
    rw [hsplit, List.take_append]
    simp
  rw [htake] at hinv hagree
  have hsp' := hsp hspent
  have hconf := confined_le repr storeId keysOf rows occurrences hm
    (matchPrefix repr storeId keysOf rows occurrences (pre.length + 1)).dead
  have hnd := kinds_nodup repr storeId keysOf rows occurrences
  have htypes : ∀ r ∈ pre ++ [(sid, kind)], r.2 ∈ typesOf repr storeId keysOf rows occurrences := by
    intro r hr
    apply kinds_snd_mem
    rw [← htake] at hr
    exact List.mem_of_mem_take hr
  have hfilled := dead_filled hinv htypes
  have hblocked := hinv.blocked hsp'
  generalize matchRows repr storeId keysOf rows occurrences = fin at *
  generalize matchPrefix repr storeId keysOf rows occurrences (pre.length + 1) = st at *
  generalize kinds repr storeId keysOf rows occurrences = R at *
  have hskip' : sid ∉ st.matched := fun h => hskip ((hagree sid (by simp)).mpr h)
  have hinj : ∀ r ∈ R, ∀ r' ∈ R, r.1 = r'.1 → r = r' := fun r hr r' hr' h => List.inj_on_of_nodup_map hnd hr hr' h
  -- the rows confined to the dead keys, the skipped one among them
  have hlong := covered_le (m := m) (fun sid => ∀ r ∈ R, r.1 = sid → ∀ k ∈ r.2, k ∈ st.dead)
    (sid :: (pre.filter (fun r => r.1 ∈ st.matched ∧ ∀ k ∈ r.2, k ∈ st.dead)).map Prod.fst)
    (by
      rw [hsplit] at hnd
      have hnd' : ((pre ++ [(sid, kind)]).map Prod.fst).Nodup :=
        hnd.sublist (by simp)
      rw [List.map_append, List.nodup_append] at hnd'
      rw [List.nodup_cons]
      refine ⟨fun h => ?_, (List.filter_sublist.map Prod.fst).nodup hnd'.1⟩
      obtain ⟨r, hr, he⟩ := List.mem_map.mp h
      exact hnd'.2.2 r.1 (List.mem_map_of_mem (List.mem_of_mem_filter hr)) sid (by simp) he)
    (by
      intro a ha
      cases ha with
      | head =>
        refine ⟨hcov sid (by simp), fun r hr he k hk => ?_⟩
        have heq : r = (sid, kind) := hinj r hr (sid, kind) (by rw [hsplit]; simp) he
        exact hblocked (sid, kind) (by simp) hskip' k (by rw [heq] at hk; exact hk)
      | tail _ ha =>
        obtain ⟨r, hr, rfl⟩ := List.mem_map.mp ha
        obtain ⟨hrpre, hrp⟩ := List.mem_filter.mp hr
        obtain ⟨hrm, hrd⟩ := of_decide_eq_true hrp
        refine ⟨hcov r.1 ?_, fun r' hr' he k hk => ?_⟩
        · have hfin : r.1 ∈ fin.matched :=
            (hagree r.1 (List.mem_map_of_mem (List.mem_append_left _ hrpre))).mpr hrm
          exact List.mem_cons_of_mem _ (List.mem_filter.mpr ⟨List.mem_map_of_mem hrpre, decide_eq_true hfin⟩)
        · have heq : r' = r := hinj r' hr' r (by rw [hsplit]; exact List.mem_append_left _ hrpre) he
          exact hrd k (by rw [heq] at hk; exact hk))
  rw [List.filter_append, List.length_append] at hfilled
  simp only [List.filter_cons, hskip', false_and, decide_false, Bool.false_eq_true, if_false,
    List.filter_nil, List.length_nil, Nat.add_zero] at hfilled
  rw [List.length_cons, List.length_map, hfilled] at hlong
  omega

/-- A spent-free run returns a maximum matching, a row is matched exactly when
it can be added to the matched rows before it, and no row loses its match. -/
theorem match_occurrences_maximum (hlabels : (occurrences.map Prod.fst).Nodup)
    (hspent : (matchRows repr storeId keysOf rows occurrences).spent = false) :
    ∃ m, matchOccurrences repr storeId keysOf rows occurrences = some m ∧
      IsMaximum (Admissible storeId keysOf rows occurrences) m ∧
      (∀ pre sid post, (rows.map storeId).eraseDups = pre ++ sid :: post →
        (sid ∈ m.map Prod.fst ↔
          Matchable (Admissible storeId keysOf rows occurrences)
            (sid :: pre.filter (fun x => x ∈ m.map Prod.fst)))) ∧
      ∀ n, ∀ sid ∈ (matchPrefix repr storeId keysOf rows occurrences n).matched, sid ∈ m.map Prod.fst := by
  obtain ⟨m, hret, hm, hdom⟩ := matchOccurrences_matching repr storeId keysOf rows occurrences hlabels
  have hmem : ∀ sid, sid ∈ m.map Prod.fst ↔ sid ∈ (matchRows repr storeId keysOf rows occurrences).matched := by
    intro sid
    rw [hdom, mem_matched_rows]
  refine ⟨m, hret, ⟨hm, fun m' hm' => ?_⟩, ?_, ?_⟩
  · have hle := matching_le repr storeId keysOf rows occurrences hspent hm'
    have hlen := congrArg List.length hdom
    rw [List.length_map, List.length_map] at hlen
    rwa [hlen]
  · intro pre sid post hsplit
    simp only [hmem]
    constructor
    · intro hsid
      refine hm.matchable (fun a ha => (hmem a).mpr ?_)
      rcases List.mem_cons.mp ha with rfl | ha
      · exact hsid
      · exact of_decide_eq_true (List.mem_filter.mp ha).2
    · intro hmatch
      by_contra hskip
      rw [← kinds_fst repr storeId keysOf rows occurrences] at hsplit
      obtain ⟨pre', rest, hR, rfl, hrest⟩ := List.map_eq_append_iff.mp hsplit
      obtain ⟨⟨sid', kind⟩, post', rfl, rfl, rfl⟩ := List.map_eq_cons_iff.mp hrest
      exact skipped_not_matchable repr storeId keysOf rows occurrences hspent hR hskip hmatch
  · intro n sid hsid
    obtain ⟨hinv, hagree, -⟩ := matchPrefix_spec repr storeId keysOf rows occurrences n
    exact (hmem sid).mpr ((hagree sid (hinv.listed sid hsid)).mpr hsid)

end Result

/-- Row 2 can only take key 0, so the path moves row 1 to key 1. -/
theorem match_occurrences_moves_first_row :
    ∃ m, matchOccurrences (fun k : Nat => toString k) (fun r : Int × List Nat => r.1) Prod.snd
        [(1, [0, 1]), (2, [0])] [("x", 0), ("y", 1)] = some m ∧
      IsMaximum (Admissible (fun r : Int × List Nat => r.1) Prod.snd [(1, [0, 1]), (2, [0])]
        [("x", 0), ("y", 1)]) m :=
  let ⟨m, h1, h2, _⟩ := match_occurrences_maximum (fun k : Nat => toString k)
    (fun r : Int × List Nat => r.1) Prod.snd [(1, [0, 1]), (2, [0])] [("x", 0), ("y", 1)]
    (by decide) (by decide +kernel)
  ⟨m, h1, h2⟩

end RecognitionMatching
