import LcmX.ClassifierGaps

/-!
# Weak matches are the forced ones

A set of units matches in order when their rows and their ordinals both increase.
The test of the weak passes holds for the units that every largest set in order
contains, and for no other.
-/
namespace Classifier

open IngestLedger

namespace Context

open LongestIncreasing ChainHeight

/-- The unit at one place has a smaller row and a smaller ordinal than the unit at another. -/
def UnitsIncrease (units : List MatchUnit) (m n : Nat) : Prop :=
  ∃ u v, units[m]? = some u ∧ units[n]? = some v ∧ u.start < v.start ∧ u.ordinal < v.ordinal

/-- The places of a largest set of units in order. -/
def LargestIncrease (units : List MatchUnit) (S : Finset Nat) : Prop :=
  Longest (Finset.range units.length) (UnitsIncrease units) S

variable {units : List MatchUnit} {m n : Nat}

/-- Among units of one row the larger ordinal is first, so larger ordinals later belong to later rows. -/
theorem increasing_iff (hsorted : units.Pairwise unitBefore) : UnitsIncrease units m n ↔
    before (units.map MatchUnit.ordinal) m n := by
  have hbefore : ∀ (i j : Nat) (u v : MatchUnit), i < j → units[i]? = some u → units[j]? = some v → unitBefore u v := by
    intro i j u v hij hu hv
    obtain ⟨hi, rfl⟩ := List.getElem?_eq_some_iff.mp hu
    obtain ⟨hj, rfl⟩ := List.getElem?_eq_some_iff.mp hv
    exact List.pairwise_iff_getElem.mp hsorted i j hi hj hij
  constructor
  · rintro ⟨u, v, hu, hv, hstart, hordinal⟩
    refine ⟨?_, u.ordinal, v.ordinal, by simp [hu], by simp [hv], hordinal⟩
    obtain hmn | heq | hnm := Nat.lt_trichotomy m n
    · exact hmn
    · subst heq
      rw [hu] at hv
      cases hv
      omega
    · have hvu := hbefore n m v u hnm hv hu
      unfold unitBefore at hvu
      omega
  · rintro ⟨hmn, a, b, ha, hb, hab⟩
    rw [List.getElem?_map, Option.map_eq_some_iff] at ha hb
    obtain ⟨u, hu, rfl⟩ := ha
    obtain ⟨v, hv, rfl⟩ := hb
    have huv := hbefore m n u v hmn hu hv
    unfold unitBefore at huv
    exact ⟨u, v, hu, hv, by omega, hab⟩

theorem getElem?_unitLevels {f g : Nat} {o : Int} (h : (unitLevels units)[n]? = some (o, f, g)) :
    f = at? (lengths (units.map MatchUnit.ordinal)) n ∧
      g = at? (lengths ((units.map MatchUnit.ordinal).reverse.map (-·))).reverse n := by
  rw [unitLevels, List.getElem?_zip_eq_some, List.getElem?_zip_eq_some] at h
  exact ⟨(at?_eq h.2.1).symm, (at?_eq h.2.2).symm⟩

theorem unitLevels_length (units : List MatchUnit) : (unitLevels units).length = units.length := by
  simp [unitLevels]

/-- The test singles out the units that are alone on their level. -/
theorem judged_forced {u : MatchUnit} {accepted : Bool} (h : (judged units)[n]? = some (u, accepted)) :
    accepted = true ↔
      Forced (Finset.range units.length) (at? (lengths (units.map MatchUnit.ordinal)))
        (at? (lengths ((units.map MatchUnit.ordinal).reverse.map (-·))).reverse) (longestUnits units) n := by
  constructor
  · rintro rfl
    obtain ⟨f, g, -, hcritical⟩ := getElem?_judged h
    obtain ⟨rfl, rfl⟩ := getElem?_unitLevels hcritical.at_index
    refine ⟨hcritical.on_longest, fun j hj heq hsum => ?_⟩
    have hj : j < (unitLevels units).length := by rwa [unitLevels_length, ← Finset.mem_range]
    obtain ⟨hf, hg⟩ := getElem?_unitLevels (List.getElem?_eq_getElem hj)
    rw [← hf, ← hg] at hsum
    exact hcritical.unique j _ (List.getElem?_eq_getElem hj) (hf.trans heq) hsum
  · intro hforced
    unfold judged at h
    dsimp only at h
    rw [List.getElem?_map, Option.map_eq_some_iff] at h
    obtain ⟨⟨v, f, g⟩, hzip, heq⟩ := h
    rw [Prod.mk.injEq] at heq
    obtain ⟨-, rfl⟩ := heq
    rw [List.getElem?_zip_eq_some] at hzip
    obtain ⟨-, hlengths⟩ := hzip
    dsimp only at hlengths
    obtain ⟨hf, hg⟩ := List.getElem?_zip_eq_some.mp hlengths
    have hsum := hforced.on_longest
    rw [at?_eq hf, at?_eq hg] at hsum
    have hlong : longestUnits units = (lengths (units.map MatchUnit.ordinal)).foldl max 0 := rfl
    simp only [decide_eq_true_eq]
    refine ⟨by omega, ?_⟩
    rw [List.count_eq_countP, List.countP_map, List.countP_filter]
    apply countP_eq_one hlengths
    · simp only [Function.comp_apply, Bool.and_eq_true, beq_iff_eq, decide_eq_true_eq]
      exact ⟨trivial, by omega⟩
    · intro j y hy hPy
      simp only [Function.comp_apply, Bool.and_eq_true, beq_iff_eq, decide_eq_true_eq] at hPy
      obtain ⟨hjf, hjg⟩ := List.getElem?_zip_eq_some.mp hy
      have hjlen : j < units.length := by simpa using (List.getElem?_eq_some_iff.mp hjf).1
      apply hforced.alone j (Finset.mem_range.mpr hjlen)
      · rw [at?_eq hjf, at?_eq hf, hPy.1]
      · have hpos := lengths_pos hjf
        rw [at?_eq hjf, at?_eq hjg]
        omega

/-- A unit is accepted when every largest set in order contains it, and only then. -/
theorem judged_iff_forced (units : List MatchUnit) (hsorted : units.Pairwise unitBefore) :
    (∀ (n : Nat) (u : MatchUnit) (accepted : Bool), (judged units)[n]? = some (u, accepted) →
        (accepted = true ↔ ∀ S, LargestIncrease units S → n ∈ S)) ∧
      (judged units).map Prod.fst = units ∧
      ∀ values : List Int, (lengths values).length = values.length ∧
        ∀ (n : Nat) (k : Nat), (lengths values)[n]? = some k →
          IsGreatest {l | ∃ S, EndsAt (Finset.range values.length) (before values) S n ∧ S.card = l} k := by
  refine ⟨fun n u accepted h => ?_, ?_, fun values => ⟨length_lengths values, fun n k hk => ?_⟩⟩
  · have hrel : UnitsIncrease units = before (units.map MatchUnit.ordinal) := by
      funext i j
      exact propext (increasing_iff hsorted)
    have hlen : (units.map MatchUnit.ordinal).length = units.length := List.length_map _
    have hn : n ∈ Finset.range units.length := by
      have hn := (List.getElem?_eq_some_iff.mp h).1
      unfold judged at hn
      simpa using hn
    have hf := height_lengths (units.map MatchUnit.ordinal)
    have hturn : StrictAnti fun x : Int => -x := fun _ _ hlt => Int.neg_lt_neg hlt
    have hg := height_back (units.map MatchUnit.ordinal) hturn
    have htop := top_lengths (units.map MatchUnit.ordinal)
    rw [hlen] at hf hg htop
    rw [judged_forced h]
    unfold LargestIncrease
    rw [hrel]
    exact forced_iff hf hg htop hn
  · unfold judged
    dsimp only
    rw [List.map_map]
    exact List.map_fst_zip (by simp)
  · have hn : n < values.length := by simpa using (List.getElem?_eq_some_iff.mp hk).1
    rw [← at?_eq hk]
    exact (height_lengths values).isGreatest (Finset.mem_range.mpr hn)

/-- Two candidates of one row tie; the row before them is forced. -/
def tiedUnits : List MatchUnit := [⟨0, 3, []⟩, ⟨1, 5, []⟩, ⟨1, 4, []⟩]

theorem judged_iff_forced_tied :
    (judged tiedUnits).map Prod.snd = [true, false, false] ∧ ∀ S, LargestIncrease tiedUnits S → 0 ∈ S := by
  refine ⟨by decide, ?_⟩
  exact ((judged_iff_forced tiedUnits (by decide)).1 0 ⟨0, 3, []⟩ true (by decide)).mp rfl

end Context

end Classifier
