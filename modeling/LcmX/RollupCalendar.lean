import LcmX.RollupStore

/-!
# Windows in seconds and days of the calendar

The overlap test of a publication compares instants, the drain expands days.
They agree where an instant is dated to the day it lies in, that is unless
rounding to microseconds carries it over the next midnight.
-/
namespace RollupStore

open Gregorian Rounding

/-- The UTC day an instant lies in. -/
def utcDay (t : Rat) : Int := epochOrdinal + ⌊t / 86400⌋

/-- The last half microsecond of a UTC day. -/
def NearMidnight (t : Rat) : Prop := ∃ day : Int, dayInstant day - 1 / 2000000 ≤ t ∧ t < dayInstant day

theorem dayInstant_le_iff (day : Int) (t : Rat) : dayInstant day ≤ t ↔ day ≤ utcDay t := by
  have hfloor : day - epochOrdinal ≤ ⌊t / 86400⌋ ↔ ((day - epochOrdinal : Int) : Rat) ≤ t / 86400 := Int.le_floor
  unfold dayInstant utcDay
  rw [show day ≤ epochOrdinal + ⌊t / 86400⌋ ↔ day - epochOrdinal ≤ ⌊t / 86400⌋ by omega, hfloor,
    le_div_iff₀ (by norm_num)]
  push_cast
  rfl

theorem lt_dayInstant_iff (day : Int) (t : Rat) : t < dayInstant day ↔ utcDay t < day := by
  rw [← not_le, dayInstant_le_iff, not_le]

theorem utcDay_mono {a b : Rat} (h : a ≤ b) : utcDay a ≤ utcDay b := by
  rw [← dayInstant_le_iff]
  exact le_trans ((dayInstant_le_iff _ _).mpr (le_refl _)) h

/-- Only the midnight that ends an instant's own day can be near. -/
theorem nearMidnight_iff (t : Rat) : NearMidnight t ↔ dayInstant (utcDay t + 1) - 1 / 2000000 ≤ t := by
  constructor
  · rintro ⟨day, h1, h2⟩
    have hlt : utcDay t + 1 ≤ day := (lt_dayInstant_iff _ _).mp h2
    have hle : dayInstant (utcDay t + 1) ≤ dayInstant day := by
      unfold dayInstant
      have : ((utcDay t + 1 : Int) : Rat) ≤ day := by exact_mod_cast hlt
      linarith
    linarith
  · intro h
    exact ⟨utcDay t + 1, h, (lt_dayInstant_iff _ _).mpr (by omega)⟩

instance (t : Rat) : Decidable (NearMidnight t) := decidable_of_iff _ (nearMidnight_iff t).symm

/-- An instant is dated to its day unless it lies just before midnight. -/
theorem fromTimestamp_eq {t : Rat} {day : Int} (hnear : ¬ NearMidnight t) (h : fromTimestamp t = some day) :
    day = utcDay t := by
  have hlow : dayInstant (utcDay t) ≤ t := (dayInstant_le_iff _ _).mpr (le_refl _)
  have hhigh : t < dayInstant (utcDay t + 1) := (lt_dayInstant_iff _ _).mpr (by omega)
  have hfar : t < dayInstant (utcDay t + 1) - 1 / 2000000 := by
    by_contra hge
    exact hnear ⟨utcDay t + 1, not_lt.mp hge, hhigh⟩
  obtain ⟨hr1, hr2⟩ := roundHalfEven_near (t * 1000000)
  simp only [fromTimestamp] at h
  generalize roundHalfEven (t * 1000000) = u at *
  unfold dayInstant at hlow hfar
  have hu1 : (utcDay t - epochOrdinal) * 86400000000 - 1 < u := by
    have : (((utcDay t - epochOrdinal) * 86400000000 - 1 : Int) : Rat) < u := by
      push_cast
      linarith
    exact_mod_cast this
  have hu2 : u < (utcDay t + 1 - epochOrdinal) * 86400000000 := by
    have : (u : Rat) < (((utcDay t + 1 - epochOrdinal) * 86400000000 : Int) : Rat) := by
      push_cast at hfar ⊢
      linarith
    exact_mod_cast this
  split at h
  · cases h
    omega
  · cases h

/-! ## Periods -/

/-- The window of the period that starts at `start` meets the interval. -/
def Intersects (kind : PeriodKind) (start : Int) (lo hi : Rat) : Prop :=
  lo < dayInstant (periodEnd kind start) ∧ dayInstant start ≤ hi

instance (kind : PeriodKind) (start : Int) (lo hi : Rat) : Decidable (Intersects kind start lo hi) :=
  inferInstanceAs (Decidable (_ ∧ _))

/-- The days of a period are those from its start to its end. -/
theorem periodStart_eq {kind : PeriodKind} {start day : Int} (hstart : periodStart kind start = start)
    (h1 : start ≤ day) (h2 : day < periodEnd kind start) : periodStart kind day = start := by
  cases kind with
  | day =>
    simp only [periodStart, periodEnd] at *
    omega
  | week =>
    simp only [periodStart, periodEnd] at *
    have h := (weekStart_eq_iff day start).mpr
    rw [hstart] at h
    exact h ⟨h1, h2⟩
  | month =>
    simp only [periodStart, periodEnd] at *
    have h := (monthStart_eq_iff day start).mpr
    rw [hstart] at h
    exact h ⟨h1, h2⟩

theorem periodStart_idem (kind : PeriodKind) (day : Int) :
    periodStart kind (periodStart kind day) = periodStart kind day := by
  cases kind with
  | day => rfl
  | week => simp only [periodStart, weekStart, weekday]; omega
  | month =>
    obtain ⟨hy, hm⟩ := month_of_monthStart day
    simp only [periodStart]
    rw [monthStart, hy, hm]
    rfl

/-- An interval that meets the window of a period has a day in the period. -/
theorem exists_day_of_intersects {kind : PeriodKind} {start : Int} {lo hi : Rat} (hle : lo ≤ hi)
    (hstart : periodStart kind start = start) (h : Intersects kind start lo hi) :
    ∃ day, utcDay lo ≤ day ∧ day ≤ utcDay hi ∧ periodStart kind day = start := by
  have h1 : utcDay lo < periodEnd kind start := (lt_dayInstant_iff _ _).mp h.1
  have h2 : start ≤ utcDay hi := (dayInstant_le_iff _ _).mp h.2
  have h3 := utcDay_mono hle
  by_cases hc : start ≤ utcDay lo
  · exact ⟨utcDay lo, le_refl _, h3, periodStart_eq hstart hc h1⟩
  · exact ⟨start, by omega, h2, hstart⟩

end RollupStore
