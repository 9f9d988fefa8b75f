import Mathlib.Data.List.ReduceOption
import Mathlib.Data.List.Sort
import Mathlib.Tactic.Linarith
import LcmX.LedgerCodec

/-!
# Ordinal labels for new rows

`plan_ordinals` of `ingest_ledger.py`. New rows go into the gaps between the
existing labels; a gap without room is re-spaced together with its neighbours.
Both arrays of the source, `positions` and `result`, are functions of the index.
-/
namespace IngestLedger

open Fallible

def ordinalStep : Int := 2 ^ 20

def minGap : Int := 2 ^ 10

def maxOrdinal : Int := 2 ^ 63 - 1

structure Placement where
  left : Option Int
  right : Option Int
  supersedes : Option Int := none
deriving DecidableEq, Repr

def bisectLeft (l : List Int) (x : Int) : Nat := (l.takeWhile (· < x)).length

/-! ## Groups -/

structure Grouping where
  previousLeft : Int := 0
  previousRight : Int := 0
  previousGap : Nat := 0
  /-- The gap of each placement so far; `groups` of the source lists their indexes by gap. -/
  gaps : List Nat := []

def naturalGap (original : List Int) (p : Placement) : Except LedgerError Nat :=
  let left := p.left.getD 0
  let right := p.right.getD (maxOrdinal + 1)
  match p.supersedes with
  | some s => if left ≤ s ∧ s < right then .ok (bisectLeft original s + 1) else newGap
  | none => newGap
where
  newGap : Except LedgerError Nat :=
    match p.left, p.right with
    | some l, some r =>
      if l ≥ r then .error (.ledger "placement bounds are out of order") else .ok (bisectLeft original r)
    | none, some r => .ok (bisectLeft original r)
    | _, none => .ok original.length

def groupPlacement (original : List Int) (s : Grouping) (p : Placement) : Except LedgerError Grouping :=
  if ∃ v ∈ [p.left, p.right, p.supersedes].reduceOption, v ∉ original then
    .error (.ledger "placement bound is not an existing ordinal")
  else
    let left := p.left.getD 0
    let right := p.right.getD (maxOrdinal + 1)
    if left ≥ right ∨ left < s.previousLeft ∨ right < s.previousRight then
      .error (.ledger "placement bounds must be non-decreasing in view order")
    else do
      let gap ← naturalGap original p
      let gap := max gap s.previousGap
      return { previousLeft := left, previousRight := right, previousGap := gap, gaps := s.gaps ++ [gap] }

/-- `groups[g]`. -/
def group (gaps : List Nat) (g : Nat) : List Nat := (List.range gaps.length).filter fun i => gaps[i]? = some g

/-! ## Labels -/

structure Labels where
  positions : Nat → Int
  result : Nat → Option Int

def lowerEnd (positions : Nat → Int) (gap : Nat) : Int := if gap = 0 then 0 else positions (gap - 1)

/-- `result[index] = value(offset)` for the offsets from `k` on. -/
def assign (value : Nat → Int) : Nat → List Nat → (Nat → Option Int) → Nat → Option Int
  | _, [], result => result
  | k, i :: is, result => assign value (k + 1) is (Function.update result i (some (value k)))

/-- `value += step; result[index] = value`, one index after the other. -/
def spread (step : Int) : List Nat → Int → (Nat → Option Int) → Int × (Nat → Option Int)
  | [], value, result => (value, result)
  | i :: is, value, result => spread step is (value + step) (Function.update result i (some (value + step)))

structure Window where
  start : Nat
  stop : Nat
  lower : Int
  step : Int
deriving Repr

def windowCount (gaps : List Nat) (start width : Nat) : Nat :=
  width + ((List.range' start (width + 1)).map fun g => (group gaps g).length).sum

def windowStep (gaps : List Nat) (size : Nat) (positions : Nat → Int) (width start : Nat) : Int :=
  let lower := lowerEnd positions start
  let count : Int := windowCount gaps start width
  if start + width < size then (positions (start + width) - lower) / (count + 1)
  else min ordinalStep ((maxOrdinal - lower) / count)

def windowAt (gaps : List Nat) (size : Nat) (positions : Nat → Int) (width start : Nat) : Option Window :=
  let step := windowStep gaps size positions width start
  if step ≥ minGap then some ⟨start, start + width, lowerEnd positions start, step⟩ else none

/-- The first window of minimal width that holds the gap and leaves `MIN_GAP` between labels. -/
def findWindow (gaps : List Nat) (size : Nat) (positions : Nat → Int) (gap : Nat) : Option Window :=
  (List.range (size + 1)).findSome? fun width =>
    (List.range' (gap - width) (min gap (size - width) + 1 - (gap - width))).findSome?
      (windowAt gaps size positions width)

def respace (gaps : List Nat) (step : Int) (stop : Nat) : List Nat → Int → Labels → Labels
  | [], _, s => s
  | g :: gs, value, s =>
    let (value, result) := spread step (group gaps g) value s.result
    if g < stop then
      respace gaps step stop gs (value + step) ⟨Function.update s.positions g (value + step), result⟩
    else respace gaps step stop gs value ⟨s.positions, result⟩

def gapStep (gaps : List Nat) (size : Nat) (positions : Nat → Int) (gap : Nat) : Int :=
  if gap < size then (positions gap - lowerEnd positions gap) / (((group gaps gap).length : Int) + 1) else ordinalStep

def gapValue (gaps : List Nat) (size : Nat) (positions : Nat → Int) (gap offset : Nat) : Int :=
  let lower := lowerEnd positions gap
  if gap < size then lower + (positions gap - lower) * offset / (((group gaps gap).length : Int) + 1)
  else lower + gapStep gaps size positions gap * offset

def placeGap (gaps : List Nat) (size : Nat) (s : Labels) (gap : Nat) : Except LedgerError Labels :=
  let indexes := group gaps gap
  if indexes.head?.any fun i => (s.result i).isSome then
    -- A preceding re-spacing already placed this whole gap.
    .ok s
  else
    let step := gapStep gaps size s.positions gap
    if step > 0 ∧ lowerEnd s.positions gap + step * indexes.length ≤ maxOrdinal then
      .ok ⟨s.positions, assign (gapValue gaps size s.positions gap) 1 indexes s.result⟩
    else
      match findWindow gaps size s.positions gap with
      | none => .error (.ledger "signed 64-bit ordinal space exhausted")
      | some w => .ok (respace gaps w.step w.stop (List.range' w.start (w.stop + 1 - w.start)) w.lower s)

/-- The labels of the new rows in placement order, and the changed old labels with their new ones. -/
def planOrdinals (existing : List Int) (placements : List Placement) :
    Except LedgerError (List (Option Int) × List (Int × Int)) := do
  let original := existing.dedup.mergeSort (· ≤ ·)
  if ∃ v ∈ original, ¬ (0 < v ∧ v ≤ maxOrdinal) then
    .error (.ledger "existing ordinals must be positive signed 64-bit integers")
  else
    let grouping ← placements.foldlM (groupPlacement original) {}
    let gaps := grouping.gaps
    let start : Labels := ⟨fun i => original.getD i 0, fun _ => none⟩
    let s ← (gaps.dedup.mergeSort (· ≤ ·)).foldlM (placeGap gaps original.length) start
    return ((List.range gaps.length).map s.result,
      (original.zip ((List.range original.length).map s.positions)).filter fun (old, new) => old ≠ new)

/-! ## Members of a group -/

variable {gaps is : List Nat} {step : Int} {size o stop start gap : Nat} {positions : Nat → Int}
  {s' : Labels} {w : Window} {original : List Int}

theorem mem_group {g i : Nat} : i ∈ group gaps g ↔ gaps[i]? = some g := by
  simp only [group, List.mem_filter, List.mem_range, decide_eq_true_eq]
  constructor
  · exact fun h => h.2
  · intro h
    exact ⟨(List.getElem?_eq_some_iff.mp h).1, h⟩

theorem group_sorted (gaps : List Nat) (g : Nat) : (group gaps g).Pairwise (· < ·) :=
  List.pairwise_lt_range.filter _

/-! ## What an assignment writes -/

theorem assign_of_notMem {value : Nat → Int} : ∀ {k : Nat} {result : Nat → Option Int} {i : Nat},
    i ∉ is → assign value k is result i = result i := by
  induction is with
  | nil => exact fun _ => rfl
  | cons j is ih =>
    intro k result i hi
    rw [List.mem_cons, not_or] at hi
    rw [assign, ih hi.2, Function.update_of_ne hi.1]

/-- Offsets grow along the indexes. -/
structure Assigned (value : Nat → Int) (k n : Nat) (is : List Nat) (result : Nat → Option Int) : Prop where
  each : ∀ i ∈ is, ∃ o, k ≤ o ∧ o < k + n ∧ result i = some (value o)
  order : ∀ i ∈ is, ∀ j ∈ is, i < j → ∃ o o', o < o' ∧ k ≤ o ∧ o' < k + n ∧
    result i = some (value o) ∧ result j = some (value o')

/-- The assignment gives the indexes rising values from where it starts. -/
theorem assigned_assign {value : Nat → Int} (hsorted : is.Pairwise (· < ·)) :
    ∀ {k : Nat} {result : Nat → Option Int}, Assigned value k is.length is (assign value k is result) := by
  induction is with
  | nil =>
    intro k result
    constructor <;> simp
  | cons a is ih =>
    intro k result
    obtain ⟨hlt, hsorted⟩ := List.pairwise_cons.mp hsorted
    have hrest : Assigned value (k + 1) is.length is (assign value k (a :: is) result) := ih hsorted
    have ha : assign value k (a :: is) result a = some (value k) := by
      rw [assign, assign_of_notMem fun hin => lt_irrefl _ (hlt a hin), Function.update_self]
    rw [List.length_cons]
    constructor
    · intro i hi
      cases List.mem_cons.mp hi with
      | inl he =>
        subst he
        exact ⟨k, le_rfl, by omega, ha⟩
      | inr hin =>
        obtain ⟨o, hlow, hhigh, ho⟩ := hrest.each i hin
        exact ⟨o, by omega, by omega, ho⟩
    · intro i hi j hj hij
      cases List.mem_cons.mp hj with
      | inl he =>
        -- The first index is the least one, so it is not the greater of two.
        subst he
        cases List.mem_cons.mp hi with
        | inl he => omega
        | inr hin => exact absurd (hlt i hin) (by omega)
      | inr hjin =>
        cases List.mem_cons.mp hi with
        | inl he =>
          subst he
          obtain ⟨o, hlow, hhigh, ho⟩ := hrest.each j hjin
          exact ⟨k, o, by omega, le_rfl, by omega, ha, ho⟩
        | inr hin =>
          obtain ⟨o, o', hlt', hlow, hhigh, hi', hj'⟩ := hrest.order i hin j hjin hij
          exact ⟨o, o', hlt', by omega, by omega, hi', hj'⟩

theorem Assigned.congr {value : Nat → Int} {k n : Nat} {result result' : Nat → Option Int}
    (h : Assigned value k n is result) (heq : ∀ i ∈ is, result' i = result i) : Assigned value k n is result' := by
  constructor
  · intro i hi
    rw [heq i hi]
    exact h.each i hi
  · intro i hi j hj hij
    rw [heq i hi, heq j hj]
    exact h.order i hi j hj hij

theorem assign_succ (value : Nat → Int) : ∀ {k : Nat} {result : Nat → Option Int},
    assign (fun o => value (o + 1)) k is result = assign value (k + 1) is result := by
  induction is with
  | nil => exact rfl
  | cons i is ih =>
    intro k result
    rw [assign, assign, ih]

theorem spread_eq : ∀ {value : Int} {result : Nat → Option Int},
    spread step is value result = (value + step * is.length, assign (fun o => value + step * o) 1 is result) := by
  induction is with
  | nil =>
    intro value result
    simp [spread, assign]
  | cons i is ih =>
    intro value result
    have hshift : (fun o : Nat => value + step + step * o) = fun o : Nat => value + step * ((o + 1 : Nat) : Int) := by
      funext o
      push_cast
      ring
    rw [spread, ih, assign, hshift, assign_succ fun o : Nat => value + step * o]
    congr 1
    · push_cast [List.length_cons]
      ring
    · simp

/-! ## Labels inside their gaps -/

/-- The label after a gap; behind the last one the word ends. -/
def upperEnd (size : Nat) (positions : Nat → Int) (gap : Nat) : Int :=
  if gap < size then positions gap else maxOrdinal + 1

/-- Every gap is open: the labels are positive, increase and fit in the word. -/
def Spaced (size : Nat) (positions : Nat → Int) : Prop := ∀ g ≤ size, lowerEnd positions g < upperEnd size positions g

/-- The rows of a gap have labels between its ends that increase with the index. -/
structure Placed (gaps : List Nat) (size : Nat) (s : Labels) (g : Nat) : Prop where
  inside : ∀ i ∈ group gaps g, ∃ v, s.result i = some v ∧ lowerEnd s.positions g < v ∧ v < upperEnd size s.positions g
  order : ∀ i ∈ group gaps g, ∀ j ∈ group gaps g, i < j → ∃ a b, s.result i = some a ∧ s.result j = some b ∧ a < b

structure Planned (gaps : List Nat) (size : Nat) (s : Labels) : Prop where
  spaced : Spaced size s.positions
  groups : ∀ g ≤ size, (∀ i ∈ group gaps g, s.result i = none) ∨ Placed gaps size s g

theorem Spaced.le_of_lt (h : Spaced size positions) {a : Nat} :
    ∀ {b : Nat}, a < b → b ≤ size → upperEnd size positions a ≤ lowerEnd positions b := by
  intro b
  induction b with
  | zero => exact fun hlt => absurd hlt (Nat.not_lt_zero a)
  | succ b ih =>
    intro hlt hb
    have hhere : upperEnd size positions b = lowerEnd positions (b + 1) := by
      simp [upperEnd, lowerEnd, show b < size by omega]
    by_cases he : a = b
    · rw [he, hhere]
    · have hprev := ih (by omega) (by omega)
      have hgap := h b (by omega)
      omega

/-- A strictly increasing assignment between the ends places its group. -/
theorem placed_of_assigned {g n : Nat} {s : Labels} {value : Nat → Int}
    (h : Assigned value 1 n (group gaps g) s.result)
    (hrange : ∀ o, 1 ≤ o → o < 1 + n → lowerEnd s.positions g < value o ∧ value o < upperEnd size s.positions g)
    (hmono : ∀ o o', o < o' → o' < 1 + n → value o < value o') : Placed gaps size s g := by
  constructor
  · intro i hi
    obtain ⟨o, hlow, hhigh, ho⟩ := h.each i hi
    exact ⟨value o, ho, hrange o hlow hhigh⟩
  · intro i hi j hj hij
    obtain ⟨o, o', hlt, _, hhigh, hi', hj'⟩ := h.order i hi j hj hij
    exact ⟨value o, value o', hi', hj', hmono o o' hlt hhigh⟩

theorem Placed.congr {g : Nat} {s : Labels} (h : Placed gaps size s g)
    (hresult : ∀ i ∈ group gaps g, s'.result i = s.result i) (hlower : lowerEnd s'.positions g = lowerEnd s.positions g)
    (hupper : upperEnd size s'.positions g = upperEnd size s.positions g) : Placed gaps size s' g := by
  constructor
  · intro i hi
    rw [hresult i hi, hlower, hupper]
    exact h.inside i hi
  · intro i hi j hj hij
    rw [hresult i hi, hresult j hj]
    exact h.order i hi j hj hij

theorem lowerEnd_congr {positions' : Nat → Int} {g : Nat} (h : ∀ i < g, positions' i = positions i) :
    lowerEnd positions' g = lowerEnd positions g := by
  unfold lowerEnd
  split
  · rfl
  · exact h (g - 1) (by omega)

theorem upperEnd_congr {positions' : Nat → Int} {g : Nat} (h : positions' g = positions g) :
    upperEnd size positions' g = upperEnd size positions g := by
  unfold upperEnd
  rw [h]

/-! ## One gap with room -/

theorem div_step_lt {d c : Int} {o' : Nat} (hc : 0 ≤ c) (hd : c + 1 ≤ d) (h : o < o') :
    d * o / (c + 1) < d * o' / (c + 1) := by
  have hle : (o : Int) + 1 ≤ o' := by exact_mod_cast h
  have hstep : d * o + 1 * (c + 1) ≤ d * o' := by nlinarith
  have hdiv : (d * o + 1 * (c + 1)) / (c + 1) ≤ d * o' / (c + 1) := Int.ediv_le_ediv (by omega) hstep
  rw [Int.add_mul_ediv_right _ _ (by omega)] at hdiv
  omega

theorem div_step_range {d c : Int} (hc : 0 ≤ c) (hd : c + 1 ≤ d) (hpos : 0 < o) (ho : (o : Int) ≤ c) :
    0 < d * o / (c + 1) ∧ d * o / (c + 1) < d := by
  constructor
  · simpa using div_step_lt hc hd hpos
  · apply Int.ediv_lt_of_lt_mul (by omega)
    nlinarith

/-! ## Re-spacing -/

theorem windowCount_succ (gaps : List Nat) (g k : Nat) :
    windowCount gaps g (k + 1) = (group gaps g).length + 1 + windowCount gaps (g + 1) k := by
  simp only [windowCount, List.range'_succ, List.map_cons, List.sum_cons]
  omega

/-- What re-spacing the gaps from `start` to `stop` achieves and leaves alone. -/
structure Respaced (gaps : List Nat) (size start stop : Nat) (s s' : Labels) : Prop where
  before : ∀ i < start, s'.positions i = s.positions i
  after : ∀ i, stop ≤ i → s'.positions i = s.positions i
  spaced : ∀ g, start ≤ g → g ≤ stop → lowerEnd s'.positions g < upperEnd size s'.positions g
  placed : ∀ g, start ≤ g → g ≤ stop → Placed gaps size s' g
  others : ∀ g, g < start ∨ stop < g → ∀ i ∈ group gaps g, s'.result i = s.result i

theorem notMem_group_of_ne {g h i : Nat} (hne : g ≠ h) (hi : i ∈ group gaps g) : i ∉ group gaps h := by
  intro hin
  rw [mem_group] at hi hin
  exact hne (Option.some.inj (hi.symm.trans hin))

theorem placed_spread {g : Nat} {value : Int} {s : Labels} (hstep : 0 < step)
    (hlower : lowerEnd s.positions g = value)
    (hupper : value + step * (group gaps g).length < upperEnd size s.positions g)
    {result : Nat → Option Int}
    (hresult : ∀ i ∈ group gaps g, s.result i = assign (fun o => value + step * o) 1 (group gaps g) result i) :
    Placed gaps size s g := by
  have hassigned : Assigned (fun o : Nat => value + step * o) 1 (group gaps g).length (group gaps g) s.result :=
    (assigned_assign (group_sorted gaps g)).congr hresult
  apply placed_of_assigned hassigned
  · intro o hlow hhigh
    have hone : (1 : Int) ≤ o := by exact_mod_cast hlow
    have hlen : (o : Int) ≤ (group gaps g).length := by exact_mod_cast (by omega : o ≤ (group gaps g).length)
    rw [hlower]
    constructor
    · nlinarith
    · nlinarith
  · intro o o' hlt _
    have hlt' : (o : Int) < o' := by exact_mod_cast hlt
    show value + step * o < value + step * o'
    nlinarith

/-- Respacing spreads the window's labels between its two ends. -/
theorem respace_spec (hstep : 0 < step) (hstop : stop ≤ size) (k : Nat) :
    ∀ {g : Nat} {value : Int} {s : Labels}, g + k = stop → lowerEnd s.positions g = value →
      value + step * windowCount gaps g k < upperEnd size s.positions stop →
      Respaced gaps size g stop s (respace gaps step stop (List.range' g (k + 1)) value s) := by
  induction k with
  | zero =>
    intro g value s hg hvalue hroom
    have hgs : g = stop := hg
    subst hgs
    rw [List.range'_one, respace, spread_eq]
    simp only [lt_irrefl, if_false, respace]
    have hcount : windowCount gaps g 0 = (group gaps g).length := by simp [windowCount]
    rw [hcount] at hroom
    constructor
    · exact fun i _ => rfl
    · exact fun i _ => rfl
    · intro h hlow hhigh
      obtain rfl : h = g := by omega
      have hlen : 0 ≤ step * (group gaps h).length := by positivity
      show lowerEnd s.positions h < upperEnd size s.positions h
      omega
    · intro h hlow hhigh
      obtain rfl : h = g := by omega
      exact placed_spread hstep hvalue hroom fun i _ => rfl
    · intro h hne i hi
      exact assign_of_notMem (notMem_group_of_ne (by omega) hi)
  | succ k ih =>
    intro g value s hg hvalue hroom
    rw [List.range'_succ, respace, spread_eq]
    simp only [show g < stop by omega, if_true]
    set value' := value + step * (group gaps g).length + step with hvalue'
    set s₁ : Labels := ⟨Function.update s.positions g value',
      assign (fun o => value + step * o) 1 (group gaps g) s.result⟩
    have hhere : s₁.positions g = value' := Function.update_self ..
    have helse : ∀ i, i ≠ g → s₁.positions i = s.positions i := fun i hi => Function.update_of_ne hi ..
    have hupper : upperEnd size s₁.positions stop = upperEnd size s.positions stop :=
      upperEnd_congr (helse stop (by omega))
    have hcount : value' + step * windowCount gaps (g + 1) k = value + step * windowCount gaps g (k + 1) := by
      rw [windowCount_succ, hvalue']
      push_cast
      ring
    have hrest := ih (g := g + 1) (s := s₁) (by omega) (by simpa [lowerEnd] using hhere)
      (by rw [hupper, hcount]; exact hroom)
    generalize respace gaps step stop (List.range' (g + 1) (k + 1)) value' s₁ = s' at hrest
    have hlower : lowerEnd s'.positions g = value := by
      rw [← hvalue]
      exact lowerEnd_congr fun i hi => (hrest.before i (by omega)).trans (helse i (by omega))
    have hpos : s'.positions g = value' := (hrest.before g (by omega)).trans hhere
    have hend : upperEnd size s'.positions g = value' := by
      rw [upperEnd, if_pos (by omega), hpos]
    have hlen : 0 ≤ step * (group gaps g).length := by positivity
    constructor
    · exact fun i hi => (hrest.before i (by omega)).trans (helse i (by omega))
    · exact fun i hi => (hrest.after i hi).trans (helse i (by omega))
    · intro h hlow hhigh
      by_cases he : h = g
      · subst he
        omega
      · exact hrest.spaced h (by omega) hhigh
    · intro h hlow hhigh
      by_cases he : h = g
      · subst he
        exact placed_spread hstep hlower (by omega) fun i hi => hrest.others h (by omega) i hi
      · exact hrest.placed h (by omega) hhigh
    · intro h hne i hi
      rw [hrest.others h (by omega) i hi]
      exact assign_of_notMem (notMem_group_of_ne (by omega) hi)

theorem Respaced.planned {s : Labels} (h : Respaced gaps size start stop s s')
    (hplanned : Planned gaps size s) : Planned gaps size s' := by
  have hlower : ∀ g, g < start ∨ stop < g → lowerEnd s'.positions g = lowerEnd s.positions g := by
    intro g hg
    unfold lowerEnd
    split
    · rfl
    · cases hg with
      | inl hlt => exact h.before (g - 1) (by omega)
      | inr hgt => exact h.after (g - 1) (by omega)
  have hupper : ∀ g, g < start ∨ stop < g → upperEnd size s'.positions g = upperEnd size s.positions g := by
    intro g hg
    cases hg with
    | inl hlt => exact upperEnd_congr (h.before g hlt)
    | inr hgt => exact upperEnd_congr (h.after g (by omega))
  constructor
  · intro g hg
    by_cases hin : start ≤ g ∧ g ≤ stop
    · exact h.spaced g hin.1 hin.2
    · rw [hlower g (by omega), hupper g (by omega)]
      exact hplanned.spaced g hg
  · intro g hg
    by_cases hin : start ≤ g ∧ g ≤ stop
    · exact .inr (h.placed g hin.1 hin.2)
    · have hout : g < start ∨ stop < g := by omega
      have hsame := h.others g hout
      cases hplanned.groups g hg with
      | inl hnone => exact .inl fun i hi => (hsame i hi).trans (hnone i hi)
      | inr hplaced => exact .inr (hplaced.congr hsame (hlower g hout) (hupper g hout))

theorem Respaced.keeps {s : Labels} (h : Respaced gaps size start stop s s')
    {g i : Nat} (hi : i ∈ group gaps g) (hsome : s.result i ≠ none) : s'.result i ≠ none := by
  by_cases hin : start ≤ g ∧ g ≤ stop
  · obtain ⟨v, hv, -⟩ := (h.placed g hin.1 hin.2).inside i hi
    simp [hv]
  · rw [h.others g (by omega) i hi]
    exact hsome

theorem Planned.placed_of_some {g : Nat} {s : Labels} (h : Planned gaps size s) (hg : g ≤ size)
    (hsome : ∀ i ∈ group gaps g, s.result i ≠ none) : Placed gaps size s g := by
  cases h.groups g hg with
  | inr hplaced => exact hplaced
  | inl hnone =>
    constructor
    · exact fun i hi => absurd (hnone i hi) (hsome i hi)
    · exact fun i hi => absurd (hnone i hi) (hsome i hi)

theorem windowStep_fits {width : Nat}
    (hpos : 0 < windowStep gaps size positions width start) :
    lowerEnd positions start + windowStep gaps size positions width start * windowCount gaps start width <
      upperEnd size positions (start + width) := by
  have hcount : (0 : Int) ≤ windowCount gaps start width := by positivity
  unfold windowStep upperEnd at *
  simp only at *
  generalize (windowCount gaps start width : Int) = count at *
  split
  · next hlt =>
    rw [if_pos hlt] at hpos
    have hmul := Int.ediv_mul_le (positions (start + width) - lowerEnd positions start) (show count + 1 ≠ 0 by omega)
    nlinarith
  · next hge =>
    rw [if_neg hge] at hpos
    have hdiv : 0 < (maxOrdinal - lowerEnd positions start) / count := lt_of_lt_of_le hpos (min_le_right ..)
    have hne : count ≠ 0 := by
      intro h0
      simp [h0] at hdiv
    have hmul := Int.ediv_mul_le (maxOrdinal - lowerEnd positions start) hne
    have hmin : min ordinalStep ((maxOrdinal - lowerEnd positions start) / count) * count ≤
        (maxOrdinal - lowerEnd positions start) / count * count :=
      Int.mul_le_mul_of_nonneg_right (min_le_right ..) hcount
    omega

theorem windowAt_some {width : Nat}
    (h : windowAt gaps size positions width start = some w) :
    w.start = start ∧ w.stop = start + width ∧ w.lower = lowerEnd positions start ∧ 0 < w.step ∧
      w.step = windowStep gaps size positions width start := by
  unfold windowAt at h
  simp only at h
  split at h
  · next hstep =>
    cases h
    have hmin : (0 : Int) < minGap := by decide
    exact ⟨rfl, rfl, rfl, by show 0 < windowStep gaps size positions width start; omega, rfl⟩
  · cases h

theorem findWindow_some
    (h : findWindow gaps size positions gap = some w) :
    w.start ≤ gap ∧ gap ≤ w.stop ∧ w.stop ≤ size ∧
      windowAt gaps size positions (w.stop - w.start) w.start = some w := by
  obtain ⟨width, hwidth, h⟩ := List.exists_of_findSome?_eq_some h
  obtain ⟨start, hstart, h⟩ := List.exists_of_findSome?_eq_some h
  obtain ⟨hs, ht, -⟩ := windowAt_some h
  rw [List.mem_range] at hwidth
  rw [List.mem_range'_1] at hstart
  have hw : w.stop - w.start = width := by omega
  rw [hw, hs]
  exact ⟨by omega, by omega, by omega, h⟩

/-! ## One gap of the plan -/

theorem gapValue_lt (hpos : 0 < gapStep gaps size positions gap)
    {o' : Nat} (h : o < o') : gapValue gaps size positions gap o < gapValue gaps size positions gap o' := by
  unfold gapValue
  simp only
  split
  · next hlt =>
    rw [gapStep, if_pos hlt] at hpos
    have hroom := (Int.le_ediv_iff_mul_le (by omega)).mp (show 1 ≤ _ from hpos)
    have hdiv := div_step_lt (by positivity) (by omega) h
      (c := (group gaps gap).length) (d := positions gap - lowerEnd positions gap)
    omega
  · have hlt' : (o : Int) < o' := by exact_mod_cast h
    nlinarith

theorem gapValue_inside (hpos : 0 < gapStep gaps size positions gap)
    (hfits : lowerEnd positions gap + gapStep gaps size positions gap * (group gaps gap).length ≤ maxOrdinal)
    (hlow : 0 < o) (hhigh : o ≤ (group gaps gap).length) :
    lowerEnd positions gap < gapValue gaps size positions gap o ∧
      gapValue gaps size positions gap o < upperEnd size positions gap := by
  have hzero : gapValue gaps size positions gap 0 = lowerEnd positions gap := by simp [gapValue]
  constructor
  · rw [← hzero]
    exact gapValue_lt hpos hlow
  · have ho : (o : Int) ≤ (group gaps gap).length := by exact_mod_cast hhigh
    unfold gapValue upperEnd
    simp only
    split
    · next hlt =>
      rw [gapStep, if_pos hlt] at hpos
      have hroom := (Int.le_ediv_iff_mul_le (by omega)).mp (show 1 ≤ _ from hpos)
      have hdiv := (div_step_range (by positivity) (by omega) hlow ho
        (d := positions gap - lowerEnd positions gap)).2
      omega
    · nlinarith

/-- One gap keeps the plan, places its own rows and takes no label away. -/
structure Places (gaps : List Nat) (size gap : Nat) (s s' : Labels) : Prop where
  planned : Planned gaps size s'
  own : Placed gaps size s' gap
  keeps : ∀ g i, i ∈ group gaps g → s.result i ≠ none → s'.result i ≠ none

theorem places_skip {s : Labels} (hgap : gap ≤ size) (hplanned : Planned gaps size s)
    (hhead : (group gaps gap).head?.any fun i => (s.result i).isSome) : Places gaps size gap s s := by
  have hplaced : Placed gaps size s gap := by
    cases hplanned.groups gap hgap with
    | inr hplaced => exact hplaced
    | inl hnone =>
      cases hgroup : group gaps gap with
      | nil => simp [hgroup] at hhead
      | cons i is =>
        have hi := hnone i (by simp [hgroup])
        simp [hgroup, hi] at hhead
  exact ⟨hplanned, hplaced, fun _ _ _ h => h⟩

theorem places_assign {s : Labels} (hplanned : Planned gaps size s)
    (hpos : 0 < gapStep gaps size s.positions gap)
    (hfits : lowerEnd s.positions gap + gapStep gaps size s.positions gap * (group gaps gap).length ≤ maxOrdinal) :
    Places gaps size gap s ⟨s.positions, assign (gapValue gaps size s.positions gap) 1 (group gaps gap) s.result⟩ := by
  set s' : Labels := ⟨s.positions, assign (gapValue gaps size s.positions gap) 1 (group gaps gap) s.result⟩
  have hplaced : Placed gaps size s' gap := by
    apply placed_of_assigned (assigned_assign (group_sorted gaps gap))
    · intro o hlow hhigh
      exact gapValue_inside hpos hfits (by omega) (by omega)
    · intro o o' hlt _
      exact gapValue_lt hpos hlt
  have hothers : ∀ g, g ≠ gap → ∀ i ∈ group gaps g, s'.result i = s.result i :=
    fun g hne i hi => assign_of_notMem (notMem_group_of_ne hne hi)
  constructor
  · constructor
    · exact hplanned.spaced
    · intro g hg
      by_cases he : g = gap
      · exact .inr (he ▸ hplaced)
      · cases hplanned.groups g hg with
        | inl hnone => exact .inl fun i hi => (hothers g he i hi).trans (hnone i hi)
        | inr hp => exact .inr (hp.congr (hothers g he) rfl rfl)
  · exact hplaced
  · intro g i hi hsome
    by_cases he : g = gap
    · obtain ⟨v, hv, -⟩ := hplaced.inside i (he ▸ hi)
      simp [hv]
    · rw [hothers g he i hi]
      exact hsome

theorem places_respace {s : Labels} (hplanned : Planned gaps size s)
    (hw : findWindow gaps size s.positions gap = some w) :
    Places gaps size gap s (respace gaps w.step w.stop (List.range' w.start (w.stop + 1 - w.start)) w.lower s) := by
  obtain ⟨hstart, hstop, hsize, hat⟩ := findWindow_some hw
  obtain ⟨-, -, hlower, hpos, hstep⟩ := windowAt_some hat
  have hfits := windowStep_fits (hstep ▸ hpos)
  rw [← hstep, ← hlower, show w.start + (w.stop - w.start) = w.stop by omega] at hfits
  have hrespaced := respace_spec hpos hsize (w.stop - w.start) (g := w.start) (by omega) hlower.symm hfits
  rw [show w.stop - w.start + 1 = w.stop + 1 - w.start by omega] at hrespaced
  exact ⟨hrespaced.planned hplanned, hrespaced.placed gap hstart hstop, fun g i hi => hrespaced.keeps hi⟩

theorem placeGap_ok {s : Labels} (hgap : gap ≤ size)
    (hplanned : Planned gaps size s) (h : placeGap gaps size s gap = .ok s') : Places gaps size gap s s' := by
  unfold placeGap at h
  simp only at h
  split at h
  · next hhead =>
    cases h
    exact places_skip hgap hplanned hhead
  · split at h
    · next hroom =>
      cases h
      exact places_assign hplanned hroom.1 hroom.2
    · split at h
      · cases h
      · next w hw =>
        cases h
        exact places_respace hplanned hw

def exhausted : LedgerError := .ledger "signed 64-bit ordinal space exhausted"

theorem placeGap_error {s : Labels} {e : LedgerError}
    (h : placeGap gaps size s gap = .error e) : e = exhausted := by
  unfold placeGap at h
  simp only at h
  split at h
  · cases h
  · split at h
    · cases h
    · split at h
      · cases h
        rfl
      · cases h

/-! ## The whole plan -/

theorem placeGaps_ok {l : List Nat} : ∀ {s s' : Labels}, (∀ g ∈ l, g ≤ size) →
    Planned gaps size s → l.foldlM (placeGap gaps size) s = .ok s' →
    Planned gaps size s' ∧ (∀ g ∈ l, Placed gaps size s' g) ∧
      ∀ g i, i ∈ group gaps g → s.result i ≠ none → s'.result i ≠ none := by
  induction l with
  | nil =>
    intro s s' _ hplanned h
    cases h
    exact ⟨hplanned, List.forall_mem_nil _, fun _ _ _ h => h⟩
  | cons gap l ih =>
    intro s s' hle hplanned h
    rw [List.foldlM_cons, bind_ok] at h
    obtain ⟨s₁, h₁, h⟩ := h
    have hgap := hle gap List.mem_cons_self
    have hplaces := placeGap_ok hgap hplanned h₁
    obtain ⟨hplanned', hplaced, hkeeps⟩ := ih (fun g hg => hle g (List.mem_cons_of_mem _ hg)) hplaces.planned h
    constructor
    · exact hplanned'
    constructor
    · intro g hg
      cases hg with
      | tail _ hg => exact hplaced g hg
      | head =>
        apply hplanned'.placed_of_some hgap
        intro i hi
        obtain ⟨v, hv, -⟩ := hplaces.own.inside i hi
        exact hkeeps gap i hi (by simp [hv])
    · intro g i hi hsome
      exact hkeeps g i hi (hplaces.keeps g i hi hsome)

theorem placeGaps_error {l : List Nat} : ∀ {s : Labels} {e : LedgerError},
    l.foldlM (placeGap gaps size) s = .error e → e = exhausted := by
  induction l with
  | nil =>
    intro s e h
    cases h
  | cons gap l ih =>
    intro s e h
    rw [List.foldlM_cons] at h
    cases hgap : placeGap gaps size s gap with
    | error e' =>
      rw [hgap] at h
      cases h
      exact placeGap_error hgap
    | ok s₁ =>
      rw [hgap] at h
      exact ih h

/-- Labels of rows in non-decreasing gaps, each between the ends of its own gap, increase with the row. -/
theorem result_lt {s : Labels} (hspaced : Spaced size s.positions)
    (hplaced : ∀ g ∈ gaps, Placed gaps size s g) (hle : ∀ g ∈ gaps, g ≤ size) (hsorted : gaps.Pairwise (· ≤ ·))
    {i j : Nat} (hij : i < j) (hj : j < gaps.length) : ∃ a b, s.result i = some a ∧ s.result j = some b ∧ a < b := by
  have hi : i < gaps.length := by omega
  have hgi : i ∈ group gaps gaps[i] := mem_group.mpr (List.getElem?_eq_getElem hi)
  have hgj : j ∈ group gaps gaps[j] := mem_group.mpr (List.getElem?_eq_getElem hj)
  have hord : gaps[i] ≤ gaps[j] := List.pairwise_iff_getElem.mp hsorted i j hi hj hij
  by_cases he : gaps[i] = gaps[j]
  · exact (hplaced _ (List.getElem_mem hj)).order i (he ▸ hgi) j hgj hij
  · obtain ⟨a, ha, -, hupper⟩ := (hplaced _ (List.getElem_mem hi)).inside i hgi
    obtain ⟨b, hb, hlower, -⟩ := (hplaced _ (List.getElem_mem hj)).inside j hgj
    have hends := hspaced.le_of_lt (show gaps[i] < gaps[j] by omega) (hle _ (List.getElem_mem hj))
    exact ⟨a, b, ha, hb, by omega⟩

theorem labels_of_placed {s : Labels} (hspaced : Spaced size s.positions)
    (hplaced : ∀ g ∈ gaps, Placed gaps size s g) (hle : ∀ g ∈ gaps, g ≤ size) (hsorted : gaps.Pairwise (· ≤ ·)) :
    ∃ labels : List Int, (List.range gaps.length).map s.result = labels.map some ∧ labels.Pairwise (· < ·) := by
  refine ⟨(List.range gaps.length).map fun i => (s.result i).getD 0, ?_, ?_⟩
  · rw [List.map_map]
    apply List.map_congr_left
    intro i hi
    rw [List.mem_range] at hi
    obtain ⟨v, hv, -⟩ := (hplaced _ (List.getElem_mem hi)).inside i (mem_group.mpr (List.getElem?_eq_getElem hi))
    simp [hv]
  · rw [List.pairwise_map]
    apply List.pairwise_lt_range.imp_of_mem
    intro i j _ hj hij
    obtain ⟨a, b, ha, hb, hab⟩ := result_lt hspaced hplaced hle hsorted hij (List.mem_range.mp hj)
    simpa [ha, hb] using hab

/-! ## Acceptable placements -/

def Placement.low (p : Placement) : Int := p.left.getD 0

def Placement.high (p : Placement) : Int := p.right.getD (maxOrdinal + 1)

/-- Bounds that exist, do not cross and do not decrease in view order. -/
structure Acceptable (existing : List Int) (placements : List Placement) : Prop where
  bounds : ∀ p ∈ placements, ∀ v, v ∈ p.left ∨ v ∈ p.right ∨ v ∈ p.supersedes → v ∈ existing
  open_gap : ∀ p ∈ placements, p.low < p.high
  order : placements.Pairwise fun p q => p.low ≤ q.low ∧ p.high ≤ q.high

theorem bisectLeft_le (l : List Int) (x : Int) : bisectLeft l x ≤ l.length :=
  (List.takeWhile_prefix _).length_le

theorem bisectLeft_lt {l : List Int} {x : Int} (h : x ∈ l) : bisectLeft l x < l.length := by
  unfold bisectLeft
  induction l with
  | nil => cases h
  | cons a l ih =>
    rw [List.takeWhile_cons]
    split
    · next hlt =>
      have hne : x ≠ a := by
        intro he
        simp [he] at hlt
      have hin := ih ((List.mem_cons.mp h).resolve_left hne)
      simpa using hin
    · simp

theorem naturalGap_ok {p : Placement} (hopen : p.low < p.high) (hsup : ∀ v ∈ p.supersedes, v ∈ original) :
    ∃ gap, naturalGap original p = .ok gap ∧ gap ≤ original.length := by
  have hnew : ∃ gap, naturalGap.newGap original p = .ok gap ∧ gap ≤ original.length := by
    unfold naturalGap.newGap
    cases hl : p.left with
    | none =>
      cases hr : p.right with
      | none => exact ⟨_, rfl, le_rfl⟩
      | some r => exact ⟨_, rfl, bisectLeft_le _ _⟩
    | some l =>
      cases hr : p.right with
      | none => exact ⟨_, rfl, le_rfl⟩
      | some r =>
        have hlt : ¬ l ≥ r := by simpa [Placement.low, Placement.high, hl, hr] using hopen
        simp only [if_neg hlt]
        exact ⟨_, rfl, bisectLeft_le _ _⟩
  unfold naturalGap
  cases hs : p.supersedes with
  | none => exact hnew
  | some v =>
    simp only
    split
    · exact ⟨_, rfl, bisectLeft_lt (hsup v hs)⟩
    · exact hnew

theorem groupPlacement_ok {s : Grouping} {p : Placement}
    (hbounds : ∀ v, v ∈ p.left ∨ v ∈ p.right ∨ v ∈ p.supersedes → v ∈ original) (hopen : p.low < p.high)
    (hleft : s.previousLeft ≤ p.low) (hright : s.previousRight ≤ p.high) :
    ∃ gap ≤ original.length, groupPlacement original s p =
      .ok ⟨p.low, p.high, max gap s.previousGap, s.gaps ++ [max gap s.previousGap]⟩ := by
  obtain ⟨gap, hgap, hle⟩ := naturalGap_ok hopen fun v hv => hbounds v (.inr (.inr hv))
  refine ⟨gap, hle, ?_⟩
  have hin : ¬ ∃ v ∈ [p.left, p.right, p.supersedes].reduceOption, v ∉ original := by
    rintro ⟨v, hv, hnot⟩
    rw [List.reduceOption_mem_iff] at hv
    apply hnot
    apply hbounds v
    simpa [eq_comm] using hv
  have hcross : ¬ (p.left.getD 0 ≥ p.right.getD (maxOrdinal + 1) ∨ p.left.getD 0 < s.previousLeft ∨
      p.right.getD (maxOrdinal + 1) < s.previousRight) := by
    unfold Placement.low Placement.high at *
    omega
  simp only [groupPlacement, if_neg hin, if_neg hcross, hgap]
  rfl

/-- Acceptable placements are grouped into gaps that never fall. -/
theorem groupPlacements_ok {placements : List Placement} : ∀ {s : Grouping},
    Acceptable original placements → (∀ p ∈ placements, s.previousLeft ≤ p.low ∧ s.previousRight ≤ p.high) →
    s.previousGap ≤ original.length → s.gaps.Pairwise (· ≤ ·) → (∀ g ∈ s.gaps, g ≤ s.previousGap) →
    ∃ s', placements.foldlM (groupPlacement original) s = .ok s' ∧
      s'.gaps.length = s.gaps.length + placements.length ∧ s'.gaps.Pairwise (· ≤ ·) ∧ ∀ g ∈ s'.gaps,
      g ≤ original.length := by
  induction placements with
  | nil =>
    intro s _ _ hgap hsorted hle
    exact ⟨s, rfl, rfl, hsorted, fun g hg => (hle g hg).trans hgap⟩
  | cons p placements ih =>
    intro s hacc hprev hgap hsorted hle
    obtain ⟨hbefore, horder⟩ := List.pairwise_cons.mp hacc.order
    obtain ⟨gap, hgaple, hstep⟩ := groupPlacement_ok (hacc.bounds p List.mem_cons_self)
      (hacc.open_gap p List.mem_cons_self)
      (hprev p List.mem_cons_self).1 (hprev p List.mem_cons_self).2
    have hrest : Acceptable original placements :=
      ⟨fun q hq => hacc.bounds q (List.mem_cons_of_mem _ hq),
        fun q hq => hacc.open_gap q (List.mem_cons_of_mem _ hq), horder⟩
    have hpairs : (s.gaps ++ [max gap s.previousGap]).Pairwise (· ≤ ·) := by
      rw [List.pairwise_append]
      refine ⟨hsorted, List.pairwise_singleton _ _, ?_⟩
      intro g hg h hh
      rw [List.mem_singleton.mp hh]
      exact (hle g hg).trans (le_max_right ..)
    have hmax : ∀ g ∈ s.gaps ++ [max gap s.previousGap], g ≤ max gap s.previousGap := by
      intro g hg
      cases List.mem_append.mp hg with
      | inl hg => exact (hle g hg).trans (le_max_right ..)
      | inr hg => rw [List.mem_singleton.mp hg]
    obtain ⟨s', hs', hlen, hsorted', hle'⟩ :=
      ih (s := ⟨p.low, p.high, max gap s.previousGap, s.gaps ++ [max gap s.previousGap]⟩)
      hrest hbefore (max_le hgaple hgap) hpairs hmax
    refine ⟨s', ?_, ?_, hsorted', hle'⟩
    · rw [List.foldlM_cons, hstep]
      exact hs'
    · rw [hlen, List.length_append, List.length_singleton, List.length_cons]
      omega

theorem planned_start (gaps : List Nat) (hsorted : original.Pairwise (· < ·))
    (hrange : ∀ v ∈ original, 0 < v ∧ v ≤ maxOrdinal) :
    Planned gaps original.length ⟨fun i => original.getD i 0, fun _ => none⟩ := by
  have hget : ∀ i, (hi : i < original.length) → original.getD i 0 = original[i] := fun i hi => by simp [hi]
  constructor
  · intro g hg
    simp only [lowerEnd, upperEnd]
    by_cases h0 : g = 0
    · rw [if_pos h0]
      split
      · next hlt =>
        rw [hget g hlt]
        exact (hrange _ (List.getElem_mem hlt)).1
      · decide
    · rw [if_neg h0, hget (g - 1) (by omega)]
      split
      · next hlt =>
        rw [hget g hlt]
        exact List.pairwise_iff_getElem.mp hsorted (g - 1) g (by omega) hlt (by omega)
      · exact Int.lt_add_one_of_le (hrange _ (List.getElem_mem _)).2
  · exact fun g _ => .inl fun i _ => rfl

theorem sorted_original (existing : List Int) : (existing.dedup.mergeSort (· ≤ ·)).Pairwise (· < ·) := by
  have hle : (existing.dedup.mergeSort (· ≤ ·)).Pairwise (· ≤ ·) := by
    exact List.pairwise_mergeSort' (· ≤ ·) existing.dedup
  have hnodup : (existing.dedup.mergeSort (· ≤ ·)).Nodup :=
    (List.mergeSort_perm _ _).nodup_iff.mpr (List.nodup_dedup existing)
  exact hle.imp₂ (fun a b hab hne => lt_of_le_of_ne hab hne) hnodup

/-- On acceptable placements the planner runs out of labels or labels every new row, in increasing order. -/
theorem planOrdinals_labels {existing : List Int} {placements : List Placement}
    (hrange : ∀ v ∈ existing, 0 < v ∧ v ≤ maxOrdinal) (hacc : Acceptable existing placements) :
    planOrdinals existing placements = .error exhausted ∨ ∃ (labels : List Int) (moved : List (Int × Int)),
      planOrdinals existing placements = .ok (labels.map some, moved) ∧ labels.length = placements.length ∧
        labels.Pairwise (· < ·) := by
  set original := existing.dedup.mergeSort (· ≤ ·) with horiginal
  have hmem : ∀ v, v ∈ original ↔ v ∈ existing := fun v => by simp [horiginal]
  have hrange' : ∀ v ∈ original, 0 < v ∧ v ≤ maxOrdinal := fun v hv => hrange v ((hmem v).mp hv)
  have hacc' : Acceptable original placements :=
    ⟨fun p hp v hv => (hmem v).mpr (hacc.bounds p hp v hv), hacc.open_gap, hacc.order⟩
  have hfirst : ∀ p ∈ placements, 0 ≤ p.low ∧ 0 ≤ p.high := by
    intro p hp
    have hlow : 0 ≤ p.low := by
      unfold Placement.low
      cases hl : p.left with
      | none => exact le_rfl
      | some l => exact (hrange l (hacc.bounds p hp l (.inl hl))).1.le
    exact ⟨hlow, hlow.trans (hacc.open_gap p hp).le⟩
  obtain ⟨grouping, hgrouping, hlen, hsorted, hle⟩ := groupPlacements_ok (s := {}) hacc' hfirst
    (Nat.zero_le _) List.Pairwise.nil (List.forall_mem_nil _)
  have hexisting : ¬ ∃ v ∈ original, ¬ (0 < v ∧ v ≤ maxOrdinal) := by
    rintro ⟨v, hv, hnot⟩
    exact hnot (hrange' v hv)
  have hplan : planOrdinals existing placements = (do
      let s ← (grouping.gaps.dedup.mergeSort (· ≤ ·)).foldlM (placeGap grouping.gaps original.length)
        ⟨fun i => original.getD i 0, fun _ => none⟩
      return ((List.range grouping.gaps.length).map s.result,
        (original.zip ((List.range original.length).map s.positions)).filter fun (old, new) => old ≠ new)) := by
    simp only [planOrdinals, ← horiginal, if_neg hexisting, hgrouping]
    rfl
  rw [hplan]
  cases hrun : (grouping.gaps.dedup.mergeSort (· ≤ ·)).foldlM (placeGap grouping.gaps original.length)
      ⟨fun i => original.getD i 0, fun _ => none⟩ with
  | error e =>
    left
    rw [placeGaps_error hrun]
    rfl
  | ok s =>
    right
    have hkeys : ∀ g, g ∈ grouping.gaps.dedup.mergeSort (· ≤ ·) ↔ g ∈ grouping.gaps := fun g => by simp
    obtain ⟨hplanned, hplaced, -⟩ := placeGaps_ok (fun g hg => hle g ((hkeys g).mp hg))
      (planned_start _ (sorted_original existing) hrange') hrun
    have hplaced' : ∀ g ∈ grouping.gaps, Placed grouping.gaps original.length s g :=
      fun g hg => hplaced g ((hkeys g).mpr hg)
    obtain ⟨labels, hlabels, hlabelled⟩ := labels_of_placed hplanned.spaced hplaced' hle hsorted
    refine ⟨labels, _, by rw [← hlabels]; rfl, ?_, hlabelled⟩
    have hcount := congrArg List.length hlabels
    simp only [List.length_map, List.length_range] at hcount
    rw [← hcount, hlen]
    exact Nat.zero_add _

end IngestLedger
