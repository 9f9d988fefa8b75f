import Mathlib.Algebra.BigOperators.Group.Finset.Piecewise
import Mathlib.Algebra.Order.BigOperators.Group.Finset
import LcmX.Matching

/-!
# The counts behind a matching in progress

Between two rows the state is a placement of units: every key carries at most
its capacity, and the dead keys are full and closed, that is, whatever sits on
a dead key can only go to dead keys. Along an augmenting path one key carries
one unit less than its load; `hole` names it.
-/
namespace RecognitionMatching

open Finset

variable {K : Type} [DecidableEq K]

@[simp] theorem addUnit_same (u : List K → K → Nat) (t : List K) (k : K) :
    addUnit u t k t k = u t k + 1 := by simp [addUnit]

theorem addUnit_apply (u : List K → K → Nat) (t t' : List K) (k k' : K) :
    addUnit u t k t' k' = u t' k' + (if t' = t ∧ k' = k then 1 else 0) := by
  by_cases ht : t' = t
  · subst ht
    by_cases hk : k' = k
    · subst hk; simp [addUnit]
    · simp [addUnit, hk]
  · simp [addUnit, ht]

theorem dropUnit_apply (u : List K → K → Nat) (t t' : List K) (k k' : K) :
    dropUnit u t k t' k' = u t' k' - (if t' = t ∧ k' = k then 1 else 0) := by
  by_cases ht : t' = t
  · subst ht
    by_cases hk : k' = k
    · subst hk; simp [dropUnit]
    · simp [dropUnit, hk]
  · simp [dropUnit, ht]

theorem addUnit_dropUnit (u : List K → K → Nat) (t : List K) (k : K) (h : 0 < u t k) :
    addUnit (dropUnit u t k) t k = u := by
  funext t' k'
  rw [addUnit_apply, dropUnit_apply]
  split
  · rename_i he
    obtain ⟨rfl, rfl⟩ := he
    omega
  · omega

/-- A new unit counts once on its key. -/
theorem sum_types_addUnit (T : Finset (List K)) (u : List K → K → Nat) (t : List K) (k k' : K)
    (ht : t ∈ T) :
    ∑ t' ∈ T, addUnit u t k t' k' = ∑ t' ∈ T, u t' k' + (if k' = k then 1 else 0) := by
  simp only [addUnit_apply, sum_add_distrib]
  congr 1
  by_cases hk : k' = k
  · simp [hk, ht]
  · simp [hk]

/-- A new unit counts once for its type. -/
theorem sum_keys_addUnit (u : List K → K → Nat) (t t' : List K) (k : K) (hk : k ∈ t) :
    ∑ k' ∈ t'.toFinset, addUnit u t k t' k' =
      ∑ k' ∈ t'.toFinset, u t' k' + (if t' = t then 1 else 0) := by
  simp only [addUnit_apply, sum_add_distrib]
  congr 1
  by_cases ht : t' = t
  · subst ht; simp [hk]
  · simp [ht]

structure Inv (cap : K → Nat) (T : Finset (List K)) (hole : Option K) (st : MatchState K) : Prop where
  unit_mem : ∀ t k, 0 < st.units t k → t ∈ T ∧ k ∈ t
  load_eq : ∀ k, st.load k = ∑ t ∈ T, st.units t k + (if hole = some k then 1 else 0)
  load_le : ∀ k, st.load k ≤ cap k
  movable_unit : ∀ t k, t ∈ st.movable k → 0 < st.units t k
  stuck : ∀ t k, 0 < st.units t k → t ∈ st.movable k ∨ ∀ k' ∈ t, k' ≠ k → k' ∈ st.dead
  dead_full : ∀ k ∈ st.dead, st.load k = cap k
  dead_closed : ∀ k ∈ st.dead, ∀ t, 0 < st.units t k → ∀ k' ∈ t, k' ∈ st.dead

theorem inv_initial (cap : K → Nat) (T : Finset (List K)) : Inv cap T none initial := by
  constructor <;> simp [initial]

theorem mem_addMovable (m : K → List (List K)) (k k' : K) (t t' : List K) :
    t' ∈ addMovable m k t k' ↔ t' ∈ m k' ∨ (k' = k ∧ t' = t) := by
  unfold addMovable
  by_cases hk : k' = k
  · subst hk
    rw [Function.update_self]
    split
    · rename_i hm
      constructor
      · exact Or.inl
      · rintro (h | ⟨-, rfl⟩)
        · exact h
        · exact hm
    · simp
  · simp [hk]

/-- What `move` leaves in `movable`: the moved type leaves `previous` with its
last unit and is listed under `found`. -/
theorem mem_move_movable (kind t : List K) (previous found k : K) (st : MatchState K) :
    t ∈ (move kind previous found st).movable k ↔
      (t ∈ st.movable k ∧ ¬ (k = previous ∧ t = kind ∧ st.units kind previous ≤ 1)) ∨
        (k = found ∧ t = kind) := by
  simp only [move, mem_addMovable, dropUnit_apply]
  by_cases hz : st.units kind previous ≤ 1
  · have h0 : st.units kind previous - 1 = 0 := by omega
    by_cases hk : k = previous
    · subst hk; simp [h0, hz]
    · simp [h0, hk]
  · have h0 : ¬ st.units kind previous - 1 = 0 := by omega
    simp [h0, hz]

theorem move_units (kind t : List K) (previous found k : K) (st : MatchState K) :
    (move kind previous found st).units t k =
      st.units t k - (if t = kind ∧ k = previous then 1 else 0) +
        (if t = kind ∧ k = found then 1 else 0) := by
  simp only [move, addUnit_apply, dropUnit_apply]

/-- One step back along the path: the hole moves from `found` to `previous`. -/
theorem inv_move {cap : K → Nat} {T : Finset (List K)} {st : MatchState K} {kind : List K}
    {previous found : K} (h : Inv cap T (some found) st) (hf : found ∈ kind) (hne : previous ≠ found)
    (hu : 0 < st.units kind previous) (hpd : previous ∉ st.dead) (hfd : found ∉ st.dead) :
    Inv cap T (some previous) (move kind previous found st) := by
  have hkT := (h.unit_mem _ _ hu).1
  have hun := fun t k => move_units kind t previous found k st
  constructor
  · intro t k hpos
    rw [hun] at hpos
    by_cases hc : t = kind ∧ k = found
    · exact ⟨hc.1 ▸ hkT, by rw [hc.1, hc.2]; exact hf⟩
    · exact h.unit_mem t k (by simp only [hc, if_false] at hpos; omega)
  · intro k
    have hsum : ∑ t ∈ T, (move kind previous found st).units t k + (if k = previous then 1 else 0) =
        ∑ t ∈ T, st.units t k + (if k = found then 1 else 0) := by
      simp only [move]
      rw [sum_types_addUnit T _ kind found k hkT]
      have hd := sum_types_addUnit T (dropUnit st.units kind previous) kind previous k hkT
      rw [addUnit_dropUnit _ _ _ hu] at hd
      omega
    have hl := h.load_eq k
    have hload : (move kind previous found st).load k = st.load k := rfl
    rw [hload, hl]
    simp only [Option.some.injEq, eq_comm (a := k)] at hsum ⊢
    omega
  · exact h.load_le
  · intro t k hm
    rw [mem_move_movable] at hm
    rw [hun]
    rcases hm with ⟨hm, hnot⟩ | ⟨rfl, rfl⟩
    · have hpos := h.movable_unit t k hm
      by_cases hc : t = kind ∧ k = previous
      · obtain ⟨rfl, rfl⟩ := hc
        have : ¬ st.units t k ≤ 1 := fun hle => hnot ⟨rfl, rfl, hle⟩
        simp only [and_self, if_true]
        omega
      · simp only [hc, if_false]
        omega
    · simp
  · intro t k hpos
    rw [hun] at hpos
    rw [mem_move_movable]
    by_cases hc : t = kind ∧ k = found
    · exact Or.inl (Or.inr ⟨hc.2, hc.1⟩)
    · simp only [hc, if_false, Nat.add_zero] at hpos
      rcases h.stuck t k (by omega) with hm | hs
      · refine Or.inl (Or.inl ⟨hm, ?_⟩)
        rintro ⟨rfl, rfl, hle⟩
        simp only [and_self, if_true] at hpos
        omega
      · exact Or.inr hs
  · exact h.dead_full
  · intro k hk t hpos
    rw [hun] at hpos
    have hkp : k ≠ previous := fun he => hpd (he ▸ hk)
    have hkf : k ≠ found := fun he => hfd (he ▸ hk)
    simp only [hkp, hkf, and_false, if_false] at hpos
    exact h.dead_closed k hk t (by omega)

/-- The rows of each type that are matched, counted by their units. -/
def Counts (rows : List (Int × List K)) (st : MatchState K) : Prop :=
  ∀ t, ∑ k ∈ t.toFinset, st.units t k = (rows.filter (fun r => r.1 ∈ st.matched ∧ r.2 = t)).length

/-- A move keeps every type's number of units. -/
theorem sum_keys_move {cap : K → Nat} {T : Finset (List K)} {hole : Option K} {st : MatchState K}
    {kind : List K} {previous found : K} (h : Inv cap T hole st) (hf : found ∈ kind)
    (hu : 0 < st.units kind previous) (t : List K) :
    ∑ k ∈ t.toFinset, (move kind previous found st).units t k = ∑ k ∈ t.toFinset, st.units t k := by
  simp only [move]
  rw [sum_keys_addUnit _ kind t found hf]
  have hd := sum_keys_addUnit (dropUnit st.units kind previous) kind t previous (h.unit_mem _ _ hu).2
  rw [addUnit_dropUnit _ _ _ hu] at hd
  omega

end RecognitionMatching
