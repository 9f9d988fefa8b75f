import LcmX.LedgerOrdinals
import Mathlib.Data.List.TakeWhile

/-!
# Planned labels keep their bounds

The gap of a placement lies after its left bound and after a target that it
supersedes inside its bounds, and not after its right bound. So do the labels,
also when a re-spacing moves the old ones.
-/
namespace IngestLedger

open Fallible

/-! ## Positions of old labels -/

/-- `sorted(set(existing))` -/
def sortedLabels (existing : List Int) : List Int := existing.dedup.mergeSort (· ≤ ·)

variable {existing : List Int} {placements : List Placement}

theorem mem_sortedLabels {v : Int} : v ∈ sortedLabels existing ↔ v ∈ existing := by
  simp [sortedLabels]

theorem bisectLeft_mono (l : List Int) {x y : Int} (h : x ≤ y) : bisectLeft l x ≤ bisectLeft l y := by
  unfold bisectLeft
  induction l with
  | nil => simp
  | cons a l ih =>
    by_cases ha : a < x
    · rw [List.takeWhile_cons_of_pos (by simpa using ha), List.takeWhile_cons_of_pos (by simp; omega), List.length_cons,
        List.length_cons]
      omega
    · rw [List.takeWhile_cons_of_neg (by simpa using ha)]
      simp

theorem bisectLeft_eq_length {l : List Int} {x : Int} (h : ∀ v ∈ l, v < x) : bisectLeft l x = l.length := by
  unfold bisectLeft
  have hall : ∀ v ∈ l, decide (v < x) = true := fun v hv => decide_eq_true (h v hv)
  rw [List.takeWhile_eq_self_iff.mpr hall]

variable {original : List Int} {k : Nat} {v w : Int}

/-- A label is at its own position. -/
theorem bisectLeft_getElem (hsorted : original.Pairwise (· < ·)) (hk : original[k]? = some v) :
    bisectLeft original v = k := by
  unfold bisectLeft
  induction original generalizing k with
  | nil => simp at hk
  | cons a original ih =>
    obtain ⟨hhead, htail⟩ := List.pairwise_cons.mp hsorted
    cases k with
    | zero =>
      cases hk
      rw [List.takeWhile_cons_of_neg (by simp)]
      rfl
    | succ k =>
      rw [List.getElem?_cons_succ] at hk
      have hlt := hhead v (List.mem_of_getElem? hk)
      rw [List.takeWhile_cons_of_pos (by simpa using hlt), List.length_cons, ih htail hk]

theorem getElem_bisectLeft (hsorted : original.Pairwise (· < ·)) (hv : v ∈ original) :
    original[bisectLeft original v]? = some v := by
  obtain ⟨k, hk⟩ := List.mem_iff_getElem?.mp hv
  rw [bisectLeft_getElem hsorted hk]
  exact hk

theorem bisectLeft_strict (hsorted : original.Pairwise (· < ·)) (hv : v ∈ original) (hlt : v < w) :
    bisectLeft original v < bisectLeft original w := by
  obtain ⟨k, hk⟩ := List.mem_iff_getElem?.mp hv
  rw [bisectLeft_getElem hsorted hk]
  unfold bisectLeft
  clear hv
  induction original generalizing k with
  | nil => simp at hk
  | cons a original ih =>
    obtain ⟨hhead, htail⟩ := List.pairwise_cons.mp hsorted
    cases k with
    | zero =>
      cases hk
      rw [List.takeWhile_cons_of_pos (by simpa using hlt)]
      simp
    | succ k =>
      rw [List.getElem?_cons_succ] at hk
      have hav := hhead v (List.mem_of_getElem? hk)
      rw [List.takeWhile_cons_of_pos (by simp; omega), List.length_cons]
      have hrest := ih htail k hk
      omega

/-! ## The gap of a placement -/

/-- A target that determines the natural gap. -/
def Placement.Supersedes (p : Placement) (s : Int) : Prop := p.supersedes = some s ∧ p.low ≤ s ∧ s < p.high

/-- Where the gap of a placement lies among the old labels. -/
structure InGap (original : List Int) (p : Placement) (gap : Nat) : Prop where
  bounds : ∀ v, v ∈ p.left ∨ v ∈ p.right ∨ v ∈ p.supersedes → v ∈ original
  left : ∀ l ∈ p.left, bisectLeft original l < gap
  right : gap ≤ bisectLeft original p.high
  target : ∀ s, p.Supersedes s → bisectLeft original s < gap
  new : (∀ s, ¬ p.Supersedes s) → gap = bisectLeft original p.high

variable {p : Placement} {gap : Nat} {s s' : Grouping}

/-- A new gap is where the upper bound of its placement goes. -/
theorem newGap_spec (hrange : ∀ v ∈ original, 0 < v ∧ v ≤ maxOrdinal) (h : naturalGap.newGap original p = .ok gap) :
    gap = bisectLeft original p.high := by
  have hlast : bisectLeft original (maxOrdinal + 1) = original.length :=
    bisectLeft_eq_length fun v hv => Int.lt_add_one_of_le (hrange v hv).2
  unfold naturalGap.newGap at h
  unfold Placement.high
  cases hr : p.right with
  | none =>
    cases hl : p.left with
    | none =>
      rw [hl, hr] at h
      cases h
      exact hlast.symm
    | some l =>
      rw [hl, hr] at h
      cases h
      exact hlast.symm
  | some r =>
    cases hl : p.left with
    | none =>
      rw [hl, hr] at h
      cases h
      rfl
    | some l =>
      rw [hl, hr] at h
      dsimp only at h
      split at h
      · cases h
      · cases h
        rfl

/-- The natural gap fits its placement. -/
theorem naturalGap_spec (hsorted : original.Pairwise (· < ·)) (hrange : ∀ v ∈ original, 0 < v ∧ v ≤ maxOrdinal)
    (hbounds : ∀ v, v ∈ p.left ∨ v ∈ p.right ∨ v ∈ p.supersedes → v ∈ original) (hopen : p.low < p.high)
    (h : naturalGap original p = .ok gap) : InGap original p gap := by
  have hnew : naturalGap.newGap original p = .ok gap → (∀ s, ¬ p.Supersedes s) → InGap original p gap := by
    intro h hnone
    have heq := newGap_spec hrange h
    refine ⟨hbounds, fun l hl => ?_, heq.le, fun s hs => absurd hs (hnone s), fun _ => heq⟩
    rw [heq]
    apply bisectLeft_strict hsorted (hbounds l (.inl hl))
    have hlow : p.low = l := by rw [Placement.low, Option.mem_def.mp hl, Option.getD_some]
    omega
  unfold naturalGap at h
  cases hs : p.supersedes with
  | none =>
    rw [hs] at h
    apply hnew h
    rintro s ⟨hsome, -⟩
    rw [hs] at hsome
    cases hsome
  | some target =>
    rw [hs] at h
    dsimp only at h
    by_cases hin : p.left.getD 0 ≤ target ∧ target < p.right.getD (maxOrdinal + 1)
    · rw [if_pos hin] at h
      cases h
      have htarget : target ∈ original := hbounds target (.inr (.inr hs))
      have hhigh : target < p.high := hin.2
      refine ⟨hbounds, fun l hl => ?_, ?_, ?_, fun hnone => absurd ⟨hs, hin⟩ (hnone target)⟩
      · have hlow : p.low = l := by rw [Placement.low, Option.mem_def.mp hl, Option.getD_some]
        have hle : l ≤ target := hlow ▸ hin.1
        exact Nat.lt_succ_of_le (bisectLeft_mono original hle)
      · exact bisectLeft_strict hsorted htarget hhigh
      · rintro s ⟨hsome, -⟩
        rw [hs] at hsome
        cases hsome
        exact Nat.lt_succ_self _
    · rw [if_neg hin] at h
      apply hnew h
      rintro s ⟨hsome, hbetween⟩
      rw [hs] at hsome
      cases hsome
      exact hin hbetween

theorem groupPlacement_inv (h : groupPlacement original s p = .ok s') :
    (∀ v, v ∈ p.left ∨ v ∈ p.right ∨ v ∈ p.supersedes → v ∈ original) ∧ p.low < p.high ∧ s.previousLeft ≤ p.low ∧
      s.previousRight ≤ p.high ∧ ∃ gap, naturalGap original p = .ok gap ∧
        s' = ⟨p.low, p.high, max gap s.previousGap, s.gaps ++ [max gap s.previousGap]⟩ := by
  unfold groupPlacement at h
  by_cases hbounds : ∃ v ∈ [p.left, p.right, p.supersedes].reduceOption, v ∉ original
  · rw [if_pos hbounds] at h
    cases h
  · rw [if_neg hbounds] at h
    dsimp only at h
    by_cases hcross : p.left.getD 0 ≥ p.right.getD (maxOrdinal + 1) ∨ p.left.getD 0 < s.previousLeft ∨
        p.right.getD (maxOrdinal + 1) < s.previousRight
    · rw [if_pos hcross] at h
      cases h
    · rw [if_neg hcross, bind_ok] at h
      obtain ⟨gap, hgap, h⟩ := h
      cases h
      unfold Placement.low Placement.high
      refine ⟨fun v hv => ?_, by omega, by omega, by omega, gap, hgap, rfl⟩
      by_contra hnot
      apply hbounds
      refine ⟨v, List.reduceOption_mem_iff.mpr ?_, hnot⟩
      simpa [eq_comm] using hv

/-- Clamping keeps a gap inside the bounds, because these do not decrease. -/
theorem InGap.clamp (h : InGap original p gap) {previous : Nat} (hprevious : previous ≤ bisectLeft original p.high) :
    InGap original p (max gap previous) := by
  refine ⟨h.bounds, fun l hl => ?_, max_le h.right hprevious, fun s hs => ?_, fun hnone => ?_⟩
  · exact lt_max_of_lt_left (h.left l hl)
  · exact lt_max_of_lt_left (h.target s hs)
  · rw [h.new hnone]
    exact max_eq_left hprevious

structure GroupedBy (original : List Int) (placements : List Placement) (s s' : Grouping) : Prop where
  gaps : ∃ added, s'.gaps = s.gaps ++ added ∧ List.Forall₂ (InGap original) placements added
  sorted : s'.gaps.Pairwise (· ≤ ·)
  bounded : ∀ g ∈ s'.gaps, g ≤ original.length

/-- Grouping gives each placement a gap that fits it. -/
theorem groupPlacements_spec (hsorted : original.Pairwise (· < ·)) (hrange : ∀ v ∈ original, 0 < v ∧ v ≤ maxOrdinal)
    (placements : List Placement) : ∀ s s' : Grouping, s.previousGap ≤ bisectLeft original s.previousRight →
      s.gaps.Pairwise (· ≤ ·) → (∀ g ∈ s.gaps, g ≤ s.previousGap) →
      placements.foldlM (groupPlacement original) s = .ok s' → GroupedBy original placements s s' := by
  induction placements with
  | nil =>
    intro s s' hprevious hpairs hle h
    cases h
    refine ⟨⟨[], by simp, .nil⟩, hpairs, fun g hg => ?_⟩
    exact (hle g hg).trans (hprevious.trans (bisectLeft_le _ _))
  | cons p placements ih =>
    intro s s' hprevious hpairs hle h
    rw [List.foldlM_cons, bind_ok] at h
    obtain ⟨mid, hmid, h⟩ := h
    obtain ⟨hbounds, hopen, -, hright, gap, hgap, rfl⟩ := groupPlacement_inv hmid
    have hceil : s.previousGap ≤ bisectLeft original p.high := hprevious.trans (bisectLeft_mono original hright)
    have hingap := (naturalGap_spec hsorted hrange hbounds hopen hgap).clamp hceil
    have hpairs' : (s.gaps ++ [max gap s.previousGap]).Pairwise (· ≤ ·) := by
      rw [List.pairwise_append]
      refine ⟨hpairs, List.pairwise_singleton _ _, fun g hg g' hg' => ?_⟩
      rw [List.mem_singleton.mp hg']
      exact (hle g hg).trans (le_max_right ..)
    have hle' : ∀ g ∈ s.gaps ++ [max gap s.previousGap], g ≤ max gap s.previousGap := by
      intro g hg
      cases List.mem_append.mp hg with
      | inl hg => exact (hle g hg).trans (le_max_right ..)
      | inr hg => exact (List.mem_singleton.mp hg).le
    have hrest := ih _ s' hingap.right hpairs' hle' h
    obtain ⟨added, hadded, hall⟩ := hrest.gaps
    refine ⟨⟨max gap s.previousGap :: added, ?_, .cons hingap hall⟩, hrest.sorted, hrest.bounded⟩
    rw [hadded, List.append_assoc, List.singleton_append]

/-! ## Images of old labels -/

/-- What a map of changed labels makes of a label. -/
def renamed (moved : List (Int × Int)) (v : Int) : Int := ((moved.find? fun m => m.1 = v).map Prod.snd).getD v

/-- The map that the plan returns: the labels that changed. -/
def changedLabels (original : List Int) (positions : Nat → Int) : List (Int × Int) :=
  (original.zip ((List.range original.length).map positions)).filter fun (old, new) => old ≠ new

variable {positions : Nat → Int}

theorem mem_changedLabels {m : Int × Int} :
    m ∈ changedLabels original positions ↔ ∃ k, original[k]? = some m.1 ∧ m.2 = positions k ∧ m.1 ≠ m.2 := by
  rw [changedLabels, List.mem_filter, List.mem_iff_getElem?]
  simp only [List.getElem?_zip_eq_some, decide_eq_true_eq]
  constructor
  · rintro ⟨⟨k, hold, hnew⟩, hne⟩
    rw [List.getElem?_map, List.getElem?_range (List.getElem?_eq_some_iff.mp hold).1, Option.map_some] at hnew
    exact ⟨k, hold, (Option.some.inj hnew).symm, hne⟩
  · rintro ⟨k, hold, hnew, hne⟩
    refine ⟨⟨k, hold, ?_⟩, hne⟩
    rw [List.getElem?_map, List.getElem?_range (List.getElem?_eq_some_iff.mp hold).1, Option.map_some, hnew]

theorem nodup_changedLabels (hsorted : original.Pairwise (· < ·)) :
    ((changedLabels original positions).map Prod.fst).Nodup := by
  have hnodup : original.Nodup := hsorted.imp ne_of_lt
  have hsub : ((changedLabels original positions).map Prod.fst).Sublist
      ((original.zip ((List.range original.length).map positions)).map Prod.fst) := List.filter_sublist.map Prod.fst
  rw [List.map_fst_zip (by simp)] at hsub
  exact hnodup.sublist hsub

theorem renamed_changedLabels (hsorted : original.Pairwise (· < ·)) (hk : original[k]? = some v) :
    renamed (changedLabels original positions) v = positions k := by
  unfold renamed
  cases hfind : (changedLabels original positions).find? fun m => m.1 = v with
  | none =>
    rw [Option.map_none, Option.getD_none]
    by_contra hne
    rw [List.find?_eq_none] at hfind
    exact hfind (v, positions k) (mem_changedLabels.mpr ⟨k, hk, rfl, hne⟩) (by simp)
  | some m =>
    rw [Option.map_some, Option.getD_some]
    obtain ⟨k', hk', hnew, -⟩ := mem_changedLabels.mp (List.mem_of_find?_eq_some hfind)
    have heq : m.1 = v := by simpa using List.find?_some hfind
    rw [heq] at hk'
    rw [hnew, ← bisectLeft_getElem hsorted hk, ← bisectLeft_getElem hsorted hk']

/-! ## The plan -/

/-- What a plan promises: labels in order, apart from the old ones and between the images of their bounds. -/
structure PlanSpec (existing : List Int) (placements : List Placement) (labels : List Int)
    (moved : List (Int × Int)) : Prop where
  count : labels.length = placements.length
  increasing : labels.Pairwise (· < ·)
  order : ∀ v ∈ existing, ∀ w ∈ existing, v < w → renamed moved v < renamed moved w
  distinct : ∀ label ∈ labels, ∀ v ∈ existing, label ≠ renamed moved v
  new_range : ∀ label ∈ labels, 0 < label ∧ label ≤ maxOrdinal
  old_range : ∀ v ∈ existing, 0 < renamed moved v ∧ renamed moved v ≤ maxOrdinal
  left : ∀ (i : Nat) (p : Placement) (label : Int), placements[i]? = some p → labels[i]? = some label →
    ∀ l ∈ p.left, renamed moved l < label
  right : ∀ (i : Nat) (p : Placement) (label : Int), placements[i]? = some p → labels[i]? = some label →
    ∀ r ∈ p.right, label < renamed moved r
  target : ∀ (i : Nat) (p : Placement) (label : Int), placements[i]? = some p → labels[i]? = some label →
    ∀ s, p.Supersedes s → renamed moved s < label
  new : ∀ (i : Nat) (p : Placement) (label : Int), placements[i]? = some p → labels[i]? = some label →
    (∀ s, ¬ p.Supersedes s) → ∀ v ∈ existing, v < p.high → renamed moved v < label
  keys : (moved.map Prod.fst).Nodup
  changed : ∀ m ∈ moved, m.1 ∈ existing ∧ m.1 ≠ m.2

variable {gaps : List Nat} {size g : Nat} {t : Labels}

theorem Spaced.position_lt (h : Spaced size positions) (hk : k < g) (hg : g ≤ size) :
    positions k ≤ lowerEnd positions g := by
  have hle := h.le_of_lt hk hg
  rwa [upperEnd, if_pos (by omega)] at hle

theorem Spaced.le_position (h : Spaced size positions) (hk : g ≤ k) (hsize : k < size) :
    upperEnd size positions g ≤ positions k := by
  by_cases heq : g = k
  · rw [heq, upperEnd, if_pos hsize]
  · have hle := h.le_of_lt (show g < k by omega) hsize.le
    have hlt := h k hsize.le
    rw [upperEnd, if_pos hsize] at hlt
    omega

theorem Spaced.position_range (h : Spaced size positions) (hk : k < size) :
    0 < positions k ∧ positions k ≤ maxOrdinal := by
  have hfirst := h 0 (Nat.zero_le size)
  have hbelow := h.le_position (Nat.zero_le k) hk
  have hlast := h size le_rfl
  have habove := h.position_lt hk le_rfl
  rw [lowerEnd, if_pos rfl] at hfirst
  rw [upperEnd, if_neg (lt_irrefl size)] at hlast
  omega

theorem Spaced.ends_range (h : Spaced size positions) (hg : g ≤ size) :
    0 ≤ lowerEnd positions g ∧ upperEnd size positions g ≤ maxOrdinal + 1 := by
  constructor
  · by_cases hzero : g = 0
    · rw [lowerEnd, if_pos hzero]
    · have hpos := (h.position_range (show g - 1 < size by omega)).1
      rw [lowerEnd, if_neg hzero]
      omega
  · by_cases hlt : g < size
    · have hle := (h.position_range hlt).2
      rw [upperEnd, if_pos hlt]
      omega
    · rw [upperEnd, if_neg hlt]

/-- Labels placed in their gaps make a plan that keeps every promise. -/
theorem planSpec_of_placed
    (hgaps : List.Forall₂ (InGap (sortedLabels existing)) placements gaps)
    (hsorted : gaps.Pairwise (· ≤ ·)) (hle : ∀ g ∈ gaps, g ≤ (sortedLabels existing).length)
    (hspaced : Spaced (sortedLabels existing).length t.positions)
    (hplaced : ∀ g ∈ gaps, Placed gaps (sortedLabels existing).length t g) :
    ∃ labels : List Int, (List.range gaps.length).map t.result = labels.map some ∧
      PlanSpec existing placements labels (changedLabels (sortedLabels existing) t.positions) := by
  have horiginal : (sortedLabels existing).Pairwise (· < ·) := sorted_original existing
  obtain ⟨labels, hlabels, hincreasing⟩ := labels_of_placed hspaced hplaced hle hsorted
  have hcount : labels.length = gaps.length := by
    have hlen := congrArg List.length hlabels
    simpa using hlen.symm
  -- The position of an old label, with its image.
  have hold : ∀ v ∈ existing, bisectLeft (sortedLabels existing) v < (sortedLabels existing).length ∧
      renamed (changedLabels (sortedLabels existing) t.positions) v = t.positions
        (bisectLeft (sortedLabels existing) v) := by
    intro v hv
    have hget := getElem_bisectLeft horiginal (mem_sortedLabels.mpr hv)
    exact ⟨(List.getElem?_eq_some_iff.mp hget).1, renamed_changedLabels horiginal hget⟩
  -- The gap of a new label.
  have hnew : ∀ (i : Nat) (label : Int), labels[i]? = some label → ∃ g, gaps[i]? = some g ∧
    g ≤ (sortedLabels existing).length ∧
      lowerEnd t.positions g < label ∧ label < upperEnd (sortedLabels existing).length t.positions g := by
    intro i label hlabel
    have hi : i < gaps.length := hcount ▸ (List.getElem?_eq_some_iff.mp hlabel).1
    have hgap := List.getElem?_eq_getElem hi
    obtain ⟨v, hv, hlow, hhigh⟩ := (hplaced _ (List.getElem_mem hi)).inside i (mem_group.mpr hgap)
    have hresult := congrArg (·[i]?) hlabels
    simp only [List.getElem?_map, List.getElem?_range hi, Option.map_some, hlabel, hv, Option.some.injEq] at hresult
    subst hresult
    exact ⟨_, hgap, hle _ (List.getElem_mem hi), hlow, hhigh⟩
  have hbelow : ∀ (i : Nat) (label : Int) (g : Nat) (v : Int), labels[i]? = some label →
    gaps[i]? = some g → v ∈ existing →
      bisectLeft (sortedLabels existing) v < g →
        renamed (changedLabels (sortedLabels existing) t.positions) v < label := by
    intro i label g v hlabel hgap hv hlt
    obtain ⟨g', hgap', hg, hlow, -⟩ := hnew i label hlabel
    rw [hgap] at hgap'
    cases hgap'
    rw [(hold v hv).2]
    exact lt_of_le_of_lt (hspaced.position_lt hlt hg) hlow
  have habove : ∀ (i : Nat) (label : Int) (g : Nat) (v : Int), labels[i]? = some label →
    gaps[i]? = some g → v ∈ existing →
      g ≤ bisectLeft (sortedLabels existing) v →
        label < renamed (changedLabels (sortedLabels existing) t.positions) v := by
    intro i label g v hlabel hgap hv hge
    obtain ⟨g', hgap', -, -, hhigh⟩ := hnew i label hlabel
    rw [hgap] at hgap'
    cases hgap'
    rw [(hold v hv).2]
    exact lt_of_lt_of_le hhigh (hspaced.le_position hge (hold v hv).1)
  have hingap : ∀ (i : Nat) (p : Placement) (label : Int), placements[i]? = some p → labels[i]? = some label →
      ∃ g, gaps[i]? = some g ∧ InGap (sortedLabels existing) p g := by
    intro i p label hp hlabel
    obtain ⟨g, hgap, -⟩ := hnew i label hlabel
    refine ⟨g, hgap, ?_⟩
    obtain ⟨hi, rfl⟩ := List.getElem?_eq_some_iff.mp hp
    obtain ⟨hj, rfl⟩ := List.getElem?_eq_some_iff.mp hgap
    exact (List.forall₂_iff_get.mp hgaps).2 i hi hj
  refine ⟨labels, hlabels, ⟨?_, hincreasing, ?_, ?_, ?_, ?_, ?_, ?_, ?_, ?_, nodup_changedLabels horiginal, ?_⟩⟩
  · rw [hcount, hgaps.length_eq]
  · intro v hv w hw hlt
    have hpos := bisectLeft_strict horiginal (mem_sortedLabels.mpr hv) hlt
    obtain ⟨hwlen, hwimage⟩ := hold w hw
    rw [(hold v hv).2, hwimage]
    have hlow := hspaced.position_lt hpos hwlen.le
    have hgap := hspaced _ hwlen.le
    rw [upperEnd, if_pos hwlen] at hgap
    omega
  · intro label hlabel v hv heq
    obtain ⟨i, hi⟩ := List.mem_iff_getElem?.mp hlabel
    obtain ⟨g, hgap, -⟩ := hnew i label hi
    by_cases hlt : bisectLeft (sortedLabels existing) v < g
    · have hless := hbelow i label g v hi hgap hv hlt
      omega
    · have hmore := habove i label g v hi hgap hv (by omega)
      omega
  · intro label hlabel
    obtain ⟨i, hi⟩ := List.mem_iff_getElem?.mp hlabel
    obtain ⟨g, -, hg, hlow, hhigh⟩ := hnew i label hi
    have hends := hspaced.ends_range hg
    omega
  · intro v hv
    obtain ⟨hlen, himage⟩ := hold v hv
    rw [himage]
    exact hspaced.position_range hlen
  · intro i p label hp hlabel l hl
    obtain ⟨g, hgap, hin⟩ := hingap i p label hp hlabel
    exact hbelow i label g l hlabel hgap (mem_sortedLabels.mp (hin.bounds l (.inl hl))) (hin.left l hl)
  · intro i p label hp hlabel r hr
    obtain ⟨g, hgap, hin⟩ := hingap i p label hp hlabel
    have hhigh : p.high = r := by rw [Placement.high, Option.mem_def.mp hr, Option.getD_some]
    exact habove i label g r hlabel hgap (mem_sortedLabels.mp (hin.bounds r (.inr (.inl hr)))) (hhigh ▸ hin.right)
  · intro i p label hp hlabel s hs
    obtain ⟨g, hgap, hin⟩ := hingap i p label hp hlabel
    exact hbelow i label g s hlabel hgap (mem_sortedLabels.mp (hin.bounds s (.inr (.inr hs.1)))) (hin.target s hs)
  · intro i p label hp hlabel hnone v hv hlt
    obtain ⟨g, hgap, hin⟩ := hingap i p label hp hlabel
    apply hbelow i label g v hlabel hgap hv
    rw [hin.new hnone]
    exact bisectLeft_strict horiginal (mem_sortedLabels.mpr hv) hlt
  · intro m hm
    obtain ⟨k, hk, -, hne⟩ := mem_changedLabels.mp hm
    exact ⟨mem_sortedLabels.mp (List.mem_of_getElem? hk), hne⟩

/-- The placements pass the checks of the first loop. -/
def Accepted (existing : List Int) (placements : List Placement) : Prop :=
  ∃ grouping, placements.foldlM (groupPlacement (sortedLabels existing)) {} = .ok grouping

/-- Past the checks, the plan is what placing the gaps comes to. -/
theorem planOrdinals_eq {grouping : Grouping}
    (hrange : ∀ v ∈ existing, 0 < v ∧ v ≤ maxOrdinal)
    (hgrouping : placements.foldlM (groupPlacement (sortedLabels existing)) {} = .ok grouping) :
    planOrdinals existing placements = (do
      let t ← (grouping.gaps.dedup.mergeSort (· ≤ ·)).foldlM (placeGap grouping.gaps (sortedLabels existing).length)
        ⟨fun i => (sortedLabels existing).getD i 0, fun _ => none⟩
      return ((List.range grouping.gaps.length).map t.result, changedLabels (sortedLabels existing) t.positions)) := by
  have hexisting : ¬ ∃ v ∈ sortedLabels existing, ¬ (0 < v ∧ v ≤ maxOrdinal) := by
    rintro ⟨v, hv, hnot⟩
    exact hnot (hrange v (mem_sortedLabels.mp hv))
  unfold planOrdinals
  change (if ∃ v ∈ sortedLabels existing, ¬ (0 < v ∧ v ≤ maxOrdinal) then _ else
    (placements.foldlM (groupPlacement (sortedLabels existing)) {}) >>= _) = _
  rw [if_neg hexisting, hgrouping]
  rfl

/-- On accepted placements the planner runs out of labels or keeps every promise. -/
theorem planOrdinals_spec
    (hrange : ∀ v ∈ existing, 0 < v ∧ v ≤ maxOrdinal) (haccepted : Accepted existing placements) :
    planOrdinals existing placements = .error exhausted ∨ ∃ (labels : List Int) (moved : List (Int × Int)),
      planOrdinals existing placements = .ok (labels.map some, moved) ∧ PlanSpec existing placements labels moved := by
  obtain ⟨grouping, hgrouping⟩ := haccepted
  have hrange' : ∀ v ∈ sortedLabels existing, 0 < v ∧ v ≤ maxOrdinal := fun v hv => hrange v (mem_sortedLabels.mp hv)
  have hspec := groupPlacements_spec (sorted_original existing) hrange' placements {} grouping (Nat.zero_le _) .nil
    (List.forall_mem_nil _) hgrouping
  obtain ⟨gaps, hgaps, hall⟩ := hspec.gaps
  obtain rfl : grouping.gaps = gaps := by simpa using hgaps
  rw [planOrdinals_eq hrange hgrouping]
  cases hrun : (grouping.gaps.dedup.mergeSort (· ≤ ·)).foldlM (placeGap grouping.gaps (sortedLabels existing).length)
      ⟨fun i => (sortedLabels existing).getD i 0, fun _ => none⟩ with
  | error e =>
    left
    rw [placeGaps_error hrun]
    rfl
  | ok t =>
    right
    have hkeys : ∀ g, g ∈ grouping.gaps.dedup.mergeSort (· ≤ ·) ↔ g ∈ grouping.gaps := fun g => by simp
    obtain ⟨hplanned, hplaced, -⟩ := placeGaps_ok (fun g hg => hspec.bounded g ((hkeys g).mp hg))
      (planned_start _ (sorted_original existing) hrange') hrun
    obtain ⟨labels, hlabels, hplan⟩ := planSpec_of_placed hall hspec.sorted hspec.bounded hplanned.spaced
      fun g hg => hplaced g ((hkeys g).mpr hg)
    refine ⟨labels, _, ?_, hplan⟩
    rw [← hlabels]
    rfl

/-- One row between neighbours: the label after it moves. -/
theorem plan_between : planOrdinals [1, 2] [⟨some 1, some 2, none⟩] = .ok ([some 1048577], [(2, 2097153)]) := by
  have hold : ([1, 2] : List Int).dedup.mergeSort (· ≤ ·) = [1, 2] := List.mergeSort_of_pairwise (by decide)
  have hgap : ([1] : List Nat).dedup.mergeSort (· ≤ ·) = [1] := List.mergeSort_of_pairwise (by decide)
  have hgroup : [(⟨some 1, some 2, none⟩ : Placement)].foldlM (groupPlacement [1, 2]) {} = .ok ⟨1, 2, 1, [1]⟩ := by rfl
  rw [planOrdinals, hold]
  simp only [hgroup]
  rw [if_neg (by decide)]
  simp only [bind, Except.bind, hgap]
  rfl

end IngestLedger
