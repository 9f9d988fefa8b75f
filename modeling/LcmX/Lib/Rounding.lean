import Mathlib.Algebra.Order.Floor.Ring
import Mathlib.Data.Rat.Floor
import Mathlib.Data.Int.Log
import Mathlib.Tactic.Linarith

/-!
# Rounding to the nearest

To the nearest integer, and from it to the nearest number with a binary
significand of 53 digits. Halves go to the even neighbour.
-/
namespace Rounding

/-- The nearest integer, halves to the even one. -/
def roundHalfEven (x : ℚ) : ℤ :=
  let f := ⌊x⌋
  if x - f < 1 / 2 then f
  else if 1 / 2 < x - f then f + 1
  else if f % 2 = 0 then f else f + 1

theorem roundHalfEven_near (x : ℚ) : x - 1 / 2 ≤ roundHalfEven x ∧ (roundHalfEven x : ℚ) ≤ x + 1 / 2 := by
  have h1 : (⌊x⌋ : ℚ) ≤ x := Int.floor_le x
  have h2 : x < ⌊x⌋ + 1 := Int.lt_floor_add_one x
  unfold roundHalfEven
  simp only
  split_ifs with h3 h4 h5
  · exact ⟨by linarith, by linarith⟩
  · push_cast
    exact ⟨by linarith, by linarith⟩
  · exact ⟨by linarith, by linarith⟩
  · push_cast
    exact ⟨by linarith, by linarith⟩

/-- The distance of the neighbours of `x` among the binary64 numbers, as long as they are normal. -/
def spacing (x : ℚ) : ℚ := 2 ^ (Int.log 2 |x| - 52)

/-- The nearest binary64 number, without overflow. -/
def binary64 (x : ℚ) : ℚ := roundHalfEven (x / spacing x) * spacing x

end Rounding
