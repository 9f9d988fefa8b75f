import LcmX.Lib.KeyedTable
import Mathlib.Tactic.Ring

/-!
# Tallies that may go negative

A tally counts occurrences, with 0 for what it does not hold, and lists can be
taken from it. `Covered` says what guarded takings can have taken from a tally:
never more than it held.
-/

/-- A counter: a number for each key. -/
structure Tally (α : Type) where
  table : KeyedTable α Int

namespace Tally

variable {α : Type} [DecidableEq α]

def empty : Tally α := ⟨.empty⟩

def count (c : Tally α) (a : α) : Int := (c.table.get a).getD 0

def contains (c : Tally α) (a : α) : Bool := (c.table.get a).isSome

def add (c : Tally α) (a : α) (n : Int) : Tally α := ⟨c.table.assign a (c.count a + n)⟩

def ofList (l : List α) : Tally α := l.foldl (fun c a => c.add a 1) empty

/-- Take every element of a list. -/
def subtract (c : Tally α) (l : List α) : Tally α := l.foldl (fun c a => c.add a (-1)) c

/-- There is enough of every element. -/
def covers (c : Tally α) (l : List α) : Bool := l.all fun a => (l.count a : Int) ≤ c.count a

@[simp] theorem count_empty (a : α) : (empty : Tally α).count a = 0 := rfl

theorem count_add (c : Tally α) (a b : α) (n : Int) : (c.add a n).count b = c.count b + if b = a then n else 0 := by
  unfold count add
  dsimp only
  rw [KeyedTable.get_assign]
  by_cases h : b = a
  · rw [if_pos h, if_pos h, h]
    rfl
  · rw [if_neg h, if_neg h, add_zero]

theorem count_foldl_add (l : List α) (n : Int) (b : α) :
    ∀ c : Tally α, (l.foldl (fun c a => c.add a n) c).count b = c.count b + n * l.count b := by
  induction l with
  | nil => simp
  | cons a l ih =>
    intro c
    rw [List.foldl_cons, ih, count_add, List.count_cons]
    by_cases h : b = a
    · subst h
      simp
      ring
    · rw [if_neg h, if_neg (by simpa using fun he => h he.symm)]
      simp

@[simp] theorem count_ofList (l : List α) (a : α) : (ofList l).count a = l.count a := by
  rw [ofList, count_foldl_add]
  simp

@[simp] theorem count_subtract (c : Tally α) (l : List α) (a : α) : (c.subtract l).count a = c.count a - l.count a := by
  rw [subtract, count_foldl_add]
  ring

variable {c base : Tally α} {spent : List α}

theorem le_of_covers {l : List α} (h : c.covers l = true) {a : α} (ha : a ∈ l) : (l.count a : Int) ≤ c.count a := by
  simpa using List.all_eq_true.mp h a ha

/-! ## Guarded takings -/

/-- `spent` was taken from `base`, and `c` is left: what has been taken of an element was there. -/
structure Covered (base c : Tally α) (spent : List α) : Prop where
  balance : ∀ a, c.count a + spent.count a ≤ base.count a
  backed : ∀ a, spent.count a = 0 ∨ 0 ≤ c.count a

theorem Covered.start (base : Tally α) : Covered base base [] := ⟨fun a => by simp, fun a => .inl rfl⟩

/-- Take a list that is covered, and spend some of it. -/
theorem Covered.spend {needs taken : List α} (h : Covered base c spent) (hcovers : c.covers needs = true)
    (htaken : ∀ a, taken.count a ≤ needs.count a) : Covered base (c.subtract needs) (spent ++ taken) := by
  constructor
  · intro a
    have hbalance := h.balance a
    have hle := htaken a
    rw [count_subtract, List.count_append]
    push_cast
    omega
  · intro a
    rw [count_subtract, List.count_append]
    by_cases hneeds : a ∈ needs
    · have henough := le_of_covers hcovers hneeds
      right
      omega
    · have hnone : needs.count a = 0 := List.count_eq_zero.mpr hneeds
      have hle := htaken a
      obtain hzero | hpos := h.backed a
      · left
        omega
      · right
        omega

/-- Set one aside while there is some. -/
theorem Covered.reserve (h : Covered base c spent) {a : α} (hpos : 0 < c.count a) :
    Covered base (c.add a (-1)) spent := by
  constructor
  · intro b
    have hbalance := h.balance b
    rw [count_add]
    split <;> omega
  · intro b
    rw [count_add]
    obtain hzero | hleft := h.backed b
    · exact .inl hzero
    · right
      split
      · next hb =>
        subst hb
        omega
      · omega

/-- Spend one while there is some. -/
theorem Covered.take (h : Covered base c spent) {a : α} (hpos : 0 < c.count a) :
    Covered base (c.add a (-1)) (spent ++ [a]) := by
  have hcovers : c.covers [a] = true := by
    simp [covers]
    omega
  exact h.spend hcovers fun _ => le_rfl

/-- Nothing is spent that was not there. -/
theorem Covered.bound (h : Covered base c spent) (a : α) :
    (spent.count a : Int) ≤ max 0 (base.count a) := by
  have hbalance := h.balance a
  obtain hzero | hleft := h.backed a <;> omega

theorem Covered.countP_bound (h : Covered base c spent) (a : α) :
    (spent.countP fun b => b = a : Nat) ≤ max 0 (base.count a) := h.bound a

end Tally
