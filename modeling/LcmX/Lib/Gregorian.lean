import Mathlib.Tactic.IntervalCases

/-!
# Proleptic Gregorian ordinals

Days are numbered from 1, the first of January of year 1, as `date.toordinal`
does. Weeks start on Monday. The two facts used of a month and of a week are
the same: the days with one start are exactly an interval.
-/
namespace Gregorian

/-- The last day of year 9999. -/
def maxOrdinal : Int := 3652059

def epochOrdinal : Int := 719163

def daysBeforeYear (year : Int) : Int :=
  (year - 1) * 365 + (year - 1) / 4 - (year - 1) / 100 + (year - 1) / 400

def isLeap (year : Int) : Bool := year % 4 = 0 && (year % 100 ≠ 0 || year % 400 = 0)

/-- Days of the year before a month; month 13 is the end of the year. -/
def daysBeforeMonth (leap : Bool) : Nat → Int
  | 1 => 0
  | 2 => 31
  | 3 => 59 + leap.toNat
  | 4 => 90 + leap.toNat
  | 5 => 120 + leap.toNat
  | 6 => 151 + leap.toNat
  | 7 => 181 + leap.toNat
  | 8 => 212 + leap.toNat
  | 9 => 243 + leap.toNat
  | 10 => 273 + leap.toNat
  | 11 => 304 + leap.toNat
  | 12 => 334 + leap.toNat
  | _ => 365 + leap.toNat

def firstOfMonth (year : Int) (month : Nat) : Int :=
  daysBeforeYear year + daysBeforeMonth (isLeap year) month + 1

/-- The mean length of a year gives the year up to one. -/
def yearOf (n : Int) : Int :=
  let q := 400 * (n - 1) / 146097
  if daysBeforeYear (q + 2) < n then q + 2
  else if daysBeforeYear (q + 1) < n then q + 1
  else q

/-- The last month among `m`, `m - 1`, .. that starts on or before the day. -/
def monthFrom (leap : Bool) (dayOfYear : Int) : Nat → Nat
  | 0 => 1
  | 1 => 1
  | m + 2 => if daysBeforeMonth leap (m + 2) < dayOfYear then m + 2 else monthFrom leap dayOfYear (m + 1)

def monthOf (n : Int) : Nat :=
  monthFrom (isLeap (yearOf n)) (n - daysBeforeYear (yearOf n)) 12

def monthStart (n : Int) : Int := firstOfMonth (yearOf n) (monthOf n)

/-- The first day of the month after the month of `n`. -/
def nextMonthStart (n : Int) : Int :=
  if monthOf n = 12 then firstOfMonth (yearOf n + 1) 1 else firstOfMonth (yearOf n) (monthOf n + 1)

def weekday (n : Int) : Int := (n + 6) % 7

def weekStart (n : Int) : Int := n - weekday n

/-! ## Years -/

theorem yearOf_spec (n : Int) : daysBeforeYear (yearOf n) < n ∧ n ≤ daysBeforeYear (yearOf n + 1) := by
  unfold yearOf
  simp only
  split_ifs with h1 h2
  · refine ⟨h1, ?_⟩
    simp only [daysBeforeYear] at *
    omega
  · refine ⟨h2, ?_⟩
    have : (400 * (n - 1) / 146097 : Int) + 1 + 1 = 400 * (n - 1) / 146097 + 2 := by omega
    rw [this]
    omega
  · refine ⟨?_, by omega⟩
    simp only [daysBeforeYear] at *
    omega

theorem daysBeforeYear_mono {a b : Int} (h : a ≤ b) : daysBeforeYear a ≤ daysBeforeYear b := by
  simp only [daysBeforeYear]
  omega

theorem yearOf_unique {n y : Int} (h1 : daysBeforeYear y < n) (h2 : n ≤ daysBeforeYear (y + 1)) : yearOf n = y := by
  obtain ⟨h3, h4⟩ := yearOf_spec n
  rcases Int.lt_trichotomy (yearOf n) y with h | h | h
  · have := daysBeforeYear_mono (show yearOf n + 1 ≤ y by omega)
    omega
  · exact h
  · have := daysBeforeYear_mono (show y + 1 ≤ yearOf n by omega)
    omega

theorem daysBeforeYear_succ (y : Int) : daysBeforeYear (y + 1) = daysBeforeYear y + daysBeforeMonth (isLeap y) 13 := by
  have hleap : ((isLeap y).toNat : Int) = if y % 4 = 0 ∧ (y % 100 ≠ 0 ∨ y % 400 = 0) then 1 else 0 := by
    by_cases h : y % 4 = 0 ∧ (y % 100 ≠ 0 ∨ y % 400 = 0)
    · have hl : isLeap y = true := by simpa [isLeap] using h
      rw [hl, if_pos h]
      rfl
    · have hl : isLeap y = false := by
        rw [Bool.eq_false_iff]
        intro ht
        exact h (by simpa [isLeap] using ht)
      rw [hl, if_neg h]
      rfl
  simp only [daysBeforeYear, daysBeforeMonth, hleap]
  split_ifs with h
  · omega
  · omega

/-! ## Months -/

theorem daysBeforeMonth_lt_succ (leap : Bool) {m : Nat} (h1 : 1 ≤ m) (h2 : m ≤ 12) :
    daysBeforeMonth leap m < daysBeforeMonth leap (m + 1) := by
  cases leap <;> interval_cases m <;> decide

theorem daysBeforeMonth_mono (leap : Bool) {a b : Nat} (h1 : 1 ≤ a) (h2 : a ≤ b) (h3 : b ≤ 13) :
    daysBeforeMonth leap a ≤ daysBeforeMonth leap b := by
  induction b, h2 using Nat.le_induction with
  | base => exact Int.le_refl _
  | succ b hb ih =>
    have := ih (by omega)
    have := daysBeforeMonth_lt_succ leap (show 1 ≤ b by omega) (show b ≤ 12 by omega)
    omega

theorem monthFrom_spec (leap : Bool) {day : Int} (hday : 1 ≤ day) (m : Nat) (h1 : 1 ≤ m) (h2 : m ≤ 12)
    (hle : day ≤ daysBeforeMonth leap (m + 1)) :
    1 ≤ monthFrom leap day m ∧ monthFrom leap day m ≤ m ∧
      daysBeforeMonth leap (monthFrom leap day m) < day ∧ day ≤ daysBeforeMonth leap (monthFrom leap day m + 1) := by
  induction m, h1 using Nat.le_induction with
  | base => exact ⟨Nat.le_refl 1, Nat.le_refl 1, hday, hle⟩
  | succ m hm ih =>
    obtain ⟨k, rfl⟩ : ∃ k, m = k + 1 := ⟨m - 1, by omega⟩
    rw [monthFrom]
    split
    · rename_i h
      exact ⟨by omega, by omega, h, hle⟩
    · rename_i h
      obtain ⟨h3, h4, h5, h6⟩ := ih (by omega) (Int.not_lt.mp h)
      exact ⟨h3, by omega, h5, h6⟩

theorem monthOf_spec (n : Int) : 1 ≤ monthOf n ∧ monthOf n ≤ 12 ∧
    firstOfMonth (yearOf n) (monthOf n) ≤ n ∧ n < firstOfMonth (yearOf n) (monthOf n + 1) := by
  obtain ⟨h1, h2⟩ := yearOf_spec n
  rw [daysBeforeYear_succ] at h2
  obtain ⟨h3, h4, h5, h6⟩ := monthFrom_spec (isLeap (yearOf n)) (show 1 ≤ n - daysBeforeYear (yearOf n) by omega) 12
    (by decide) (by decide) (show _ ≤ daysBeforeMonth _ 13 by omega)
  simp only [monthOf, firstOfMonth]
  exact ⟨h3, h4, by omega, by omega⟩

theorem nextMonthStart_eq (n : Int) : nextMonthStart n = firstOfMonth (yearOf n) (monthOf n + 1) := by
  unfold nextMonthStart
  split
  · rename_i h
    rw [h]
    simp only [firstOfMonth, daysBeforeYear_succ]
    simp only [daysBeforeMonth]
    omega
  · rfl

/-- The month of a day is the one it lies in. -/
theorem month_unique {n y : Int} {m : Nat} (h1 : 1 ≤ m) (h2 : m ≤ 12) (h3 : firstOfMonth y m ≤ n)
    (h4 : n < firstOfMonth y (m + 1)) : yearOf n = y ∧ monthOf n = m := by
  have hlow := daysBeforeMonth_mono (isLeap y) (Nat.le_refl 1) h1 (show m ≤ 13 by omega)
  have hhigh := daysBeforeMonth_mono (isLeap y) (show 1 ≤ m + 1 by omega) (show m + 1 ≤ 13 by omega) (Nat.le_refl 13)
  have hfirst : daysBeforeMonth (isLeap y) 1 = 0 := rfl
  have hy : yearOf n = y := by
    apply yearOf_unique
    · simp only [firstOfMonth] at h3
      omega
    · rw [daysBeforeYear_succ]
      simp only [firstOfMonth] at h4
      omega
  obtain ⟨h5, h6, h7, h8⟩ := monthOf_spec n
  rw [hy] at h7 h8
  simp only [firstOfMonth] at h3 h4 h7 h8
  refine ⟨hy, ?_⟩
  rcases Nat.lt_trichotomy (monthOf n) m with h | h | h
  · have := daysBeforeMonth_mono (isLeap y) (show 1 ≤ monthOf n + 1 by omega) (show monthOf n + 1 ≤ m by omega)
      (show m ≤ 13 by omega)
    omega
  · exact h
  · have := daysBeforeMonth_mono (isLeap y) (show 1 ≤ m + 1 by omega) (show m + 1 ≤ monthOf n by omega)
      (show monthOf n ≤ 13 by omega)
    omega

theorem monthStart_le (n : Int) : monthStart n ≤ n := (monthOf_spec n).2.2.1

/-- The first day of a month lies in the month. -/
theorem month_of_monthStart (n : Int) : yearOf (monthStart n) = yearOf n ∧ monthOf (monthStart n) = monthOf n := by
  obtain ⟨h1, h2, -, -⟩ := monthOf_spec n
  have hlt := daysBeforeMonth_lt_succ (isLeap (yearOf n)) h1 h2
  apply month_unique h1 h2 (Int.le_refl _)
  simp only [firstOfMonth]
  omega

/-- The days with the month start of `s` are those from it to the next one. -/
theorem monthStart_eq_iff (n s : Int) : monthStart n = monthStart s ↔ monthStart s ≤ n ∧ n < nextMonthStart s := by
  obtain ⟨h1, h2, h3, h4⟩ := monthOf_spec s
  rw [nextMonthStart_eq]
  constructor
  · intro h
    obtain ⟨hy, hm⟩ := month_of_monthStart n
    obtain ⟨hy', hm'⟩ := month_of_monthStart s
    rw [h] at hy hm
    rw [← h, ← hy', ← hm', hy, hm]
    exact ⟨monthStart_le n, (monthOf_spec n).2.2.2⟩
  · rintro ⟨h5, h6⟩
    obtain ⟨hy, hm⟩ := month_unique h1 h2 h5 h6
    simp only [monthStart, hy, hm]

/-- The days with the week start of `s` are the seven from it on. -/
theorem weekStart_eq_iff (n s : Int) : weekStart n = weekStart s ↔ weekStart s ≤ n ∧ n < weekStart s + 7 := by
  simp only [weekStart, weekday]
  omega

end Gregorian
