import LcmX.SummaryRoutes
import LcmX.Lib.Rounding

/-!
# The rate the spend guard keeps

The calls of a guard are told apart by the time they are made at. A reserved call stays on
record for as long as it is inside the window, and a tripped guard waits at least one window,
so no stretch shorter than the window holds more reservations than the budget. With rounded
sums the wait may end a little early.
-/
namespace Escalation

/-- One use of the guard, at the time it is made. -/
inductive SpendCall where
  | allows (now : ℚ)
  | tryRecordCall (now : ℚ)
  | remaining (now : ℚ)
  deriving DecidableEq

def SpendCall.time : SpendCall → ℚ
  | .allows now | .tryRecordCall now | .remaining now => now

/-- What a use gives back. An unlimited count is `none`. -/
inductive SpendAnswer where
  | granted (ok : Bool)
  | left (count : Option Nat)
  deriving DecidableEq

namespace SummarySpendGuard

section Methods

variable (g : SummarySpendGuard) (now : ℚ)

def allows : Bool × SummarySpendGuard :=
  if now < g.backoffUntil then (false, g)
  else (decide ((g.prune now).calls.length < g.maxCalls), g.prune now)

def remaining : Nat :=
  if now < g.backoffUntil then 0
  else (g.maxCalls - g.calls.countP (g.cutoff now ≤ ·)).toNat

/-- A guard without a budget answers before it looks at the time. -/
def ask : SpendCall → SpendAnswer × SummarySpendGuard
  | .allows now => if g.maxCalls ≤ 0 then (.granted true, g) else (.granted (g.allows now).1, (g.allows now).2)
  | .tryRecordCall now =>
    if g.maxCalls ≤ 0 then (.granted true, g) else (.granted (g.tryRecordCall now).1, (g.tryRecordCall now).2)
  | .remaining now => if g.maxCalls ≤ 0 then (.left none, g) else (.left (some (g.remaining now)), g)

/-- The branch of `_record_call_locked` that opens the backoff is taken. -/
def opensBackoff : Prop := g.maxCalls ≤ (g.calls ++ [now]).length ∧ g.backoffUntil ≤ now

/-- Sums of times are not rounded. -/
def Exact : Prop := ∀ x, g.round x = x

/-- A reservation at this time trips the guard. -/
def Trips : Prop := (g.ask (.tryRecordCall now)).1 = .granted true ∧ (g.prune now).opensBackoff now

end Methods

/-- The guard after a sequence of uses. -/
def after (g : SummarySpendGuard) (calls : List SpendCall) : SummarySpendGuard :=
  calls.foldl (fun g c => (g.ask c).2) g

/-- The times of the successful reservations. -/
def reserved : SummarySpendGuard → List SpendCall → List ℚ
  | _, [] => []
  | g, .tryRecordCall now :: rest =>
    if (g.ask (.tryRecordCall now)).1 = .granted true then now :: reserved (g.ask (.tryRecordCall now)).2 rest
    else reserved (g.ask (.tryRecordCall now)).2 rest
  | g, c :: rest => reserved (g.ask c).2 rest

/-! ## What one use does -/

section Steps

variable {g : SummarySpendGuard} {now : ℚ}

@[simp] theorem prune_maxCalls : (g.prune now).maxCalls = g.maxCalls := by unfold prune; split <;> rfl

@[simp] theorem prune_windowSeconds : (g.prune now).windowSeconds = g.windowSeconds := by unfold prune; split <;> rfl

@[simp] theorem prune_backoffSeconds : (g.prune now).backoffSeconds = g.backoffSeconds := by unfold prune; split <;> rfl

@[simp] theorem prune_round : (g.prune now).round = g.round := by unfold prune; split <;> rfl

@[simp] theorem prune_cutoff (t : ℚ) : (g.prune now).cutoff t = g.cutoff t := by simp [cutoff]

@[simp] theorem prune_deadline (t : ℚ) : (g.prune now).deadline t = g.deadline t := by simp [deadline]

theorem Exact.cutoff_eq (h : g.Exact) (now : ℚ) : g.cutoff now = now - g.windowSeconds := h _

theorem Exact.deadline_eq (h : g.Exact) (now : ℚ) : g.deadline now = now + max 0 g.backoffSeconds := h _

@[simp] theorem prune_backoffUntil : (g.prune now).backoffUntil = g.backoffUntil := by unfold prune; split <;> rfl

theorem prune_of_nil (h : g.calls = []) : g.prune now = g := by simp [prune, h]

/-- What is still inside the window at the time of the pruning is kept. -/
theorem countP_prune {a : ℚ} (h : g.cutoff now ≤ a) :
    (g.prune now).calls.countP (a ≤ ·) = g.calls.countP (a ≤ ·) := by
  unfold prune
  split
  · rw [List.countP_filter]
    refine List.countP_congr fun t _ => ?_
    simpa using fun hat : a ≤ t => h.trans hat
  · rfl

/-- A use leaves the limits as they are. -/
theorem ask_limits (c : SpendCall) :
    (g.ask c).2.maxCalls = g.maxCalls ∧ (g.ask c).2.windowSeconds = g.windowSeconds ∧
      (g.ask c).2.backoffSeconds = g.backoffSeconds ∧ (g.ask c).2.round = g.round := by
  cases c with
  | allows now =>
    simp only [ask, allows]
    split
    · exact ⟨rfl, rfl, rfl, rfl⟩
    · split <;> simp
  | tryRecordCall now =>
    simp only [ask, tryRecordCall, recordCallLocked]
    split
    · exact ⟨rfl, rfl, rfl, rfl⟩
    · split
      · exact ⟨rfl, rfl, rfl, rfl⟩
      · split
        · simp
        · dsimp only
          split <;> simp
  | remaining now =>
    simp only [ask]
    split <;> exact ⟨rfl, rfl, rfl, rfl⟩

theorem Exact.ask (h : g.Exact) (c : SpendCall) : (g.ask c).2.Exact := by
  intro x
  rw [(g.ask_limits c).2.2.2]
  exact h x

/-- A reservation is refused and changes nothing on record but what is too old, or it is made. -/
theorem tryRecordCall_cases (g : SummarySpendGuard) (now : ℚ) (hmax : 0 < g.maxCalls) :
    (now < g.backoffUntil ∧ g.ask (.tryRecordCall now) = (.granted false, g)) ∨
    (g.backoffUntil ≤ now ∧ g.maxCalls ≤ (g.prune now).calls.length ∧
      g.ask (.tryRecordCall now) = (.granted false, g.prune now)) ∨
    (g.backoffUntil ≤ now ∧ (g.prune now).calls.length < g.maxCalls ∧
      g.ask (.tryRecordCall now) = (.granted true, (g.prune now).recordCallLocked now)) := by
  have hon : ¬ g.maxCalls ≤ 0 := not_le.mpr hmax
  by_cases hwait : now < g.backoffUntil
  · exact .inl ⟨hwait, by simp [ask, tryRecordCall, hon, hwait]⟩
  · by_cases hfull : g.maxCalls ≤ (g.prune now).calls.length
    · exact .inr (.inl ⟨not_lt.mp hwait, hfull, by simp [ask, tryRecordCall, hon, hwait, hfull]⟩)
    · exact .inr (.inr ⟨not_lt.mp hwait, not_le.mp hfull, by simp [ask, tryRecordCall, hon, hwait, hfull]⟩)

/-- A reservation that is made opens the backoff with an empty record, or adds its time to the record. -/
theorem recordCallLocked_cases (g : SummarySpendGuard) {now : ℚ} (h : g.backoffUntil ≤ now) :
    (g.maxCalls ≤ g.calls.length + 1 ∧
      g.recordCallLocked now = { g with calls := [], backoffUntil := g.deadline now }) ∨
    (g.calls.length + 1 < g.maxCalls ∧ g.recordCallLocked now = { g with calls := g.calls ++ [now] }) := by
  by_cases hfull : g.maxCalls ≤ g.calls.length + 1
  · exact .inl ⟨hfull, by simp [recordCallLocked, h, hfull]⟩
  · exact .inr ⟨not_le.mp hfull, by simp [recordCallLocked, hfull]⟩

theorem reserved_cons (c : SpendCall) (rest : List SpendCall) :
    g.reserved (c :: rest) = (g.ask c).2.reserved rest ∨
      (∃ now, c = .tryRecordCall now ∧ (g.ask c).1 = .granted true ∧
        g.reserved (c :: rest) = now :: (g.ask c).2.reserved rest) := by
  cases c with
  | allows now => exact .inl rfl
  | remaining now => exact .inl rfl
  | tryRecordCall now =>
    by_cases hok : (g.ask (.tryRecordCall now)).1 = .granted true
    · exact .inr ⟨now, rfl, hok, by rw [reserved, if_pos hok]⟩
    · exact .inl (by rw [reserved, if_neg hok])

end Steps

/-- Every reservation is made at the time of one of the uses. -/
theorem exists_time_of_mem_reserved {calls : List SpendCall} {g : SummarySpendGuard} {t : ℚ}
    (ht : t ∈ g.reserved calls) : ∃ c ∈ calls, c.time = t := by
  induction calls generalizing g with
  | nil => cases ht
  | cons c rest ih =>
    obtain heq | ⟨now, rfl, -, heq⟩ := g.reserved_cons c rest
    · rw [heq] at ht
      obtain ⟨d, hd, htime⟩ := ih ht
      exact ⟨d, List.mem_cons_of_mem _ hd, htime⟩
    · rw [heq] at ht
      cases ht with
      | head => exact ⟨_, List.mem_cons_self, rfl⟩
      | tail _ ht =>
        obtain ⟨d, hd, htime⟩ := ih ht
        exact ⟨d, List.mem_cons_of_mem _ hd, htime⟩

/-! ## The rate -/

/-- How many of the times lie between `a` and `b`. -/
def within (a b : ℚ) (times : List ℚ) : Nat := times.countP fun t => a ≤ t && t ≤ b

theorem within_cons_of_le {a b t : ℚ} (times : List ℚ) (hat : a ≤ t) (htb : t ≤ b) :
    within a b (t :: times) = within a b times + 1 :=
  List.countP_cons_of_pos (p := fun t => decide (a ≤ t) && decide (t ≤ b)) (by simp [hat, htb])

theorem within_cons_of_lt {a b t : ℚ} (times : List ℚ) (hat : t < a) : within a b (t :: times) = within a b times :=
  List.countP_cons_of_neg (p := fun t => decide (a ≤ t) && decide (t ≤ b)) (by simp [hat])

/-- After `k` reservations since `a`, the guard waits until after `b`, or it has them all on record. -/
structure Holds (g : SummarySpendGuard) (a b : ℚ) (k : Nat) : Prop where
  le_maxCalls : (k : Int) ≤ g.maxCalls
  held : b < g.backoffUntil ∨ ((k : Int) < g.maxCalls ∧ k ≤ g.calls.countP (a ≤ ·))

section Rate

variable {g : SummarySpendGuard} {a b : ℚ} {k : Nat}

theorem Holds.prune {now : ℚ} (h : g.Holds a b k) (hnow : g.cutoff now ≤ a) : (g.prune now).Holds a b k where
  le_maxCalls := by simpa using h.le_maxCalls
  held := by simpa [countP_prune hnow] using h.held

/-- A use between `a` and `b` keeps the record, and a reservation adds one to it. -/
theorem Holds.ask {c : SpendCall} (h : g.Holds a b k) (hexact : g.Exact) (hmax : 0 < g.maxCalls)
    (hwait : g.windowSeconds ≤ g.backoffSeconds)
    (hab : b - a < g.windowSeconds) (hac : a ≤ c.time) (hcb : c.time ≤ b) :
    (∃ now, c = .tryRecordCall now ∧ (g.ask c).1 = .granted true ∧ (g.ask c).2.Holds a b (k + 1)) ∨
      ((∀ now, c = .tryRecordCall now → (g.ask c).1 = .granted false) ∧ (g.ask c).2.Holds a b k) := by
  have hprune : (g.prune c.time).Holds a b k := h.prune (by rw [hexact.cutoff_eq]; linarith)
  have hon : ¬ g.maxCalls ≤ 0 := not_le.mpr hmax
  cases c with
  | remaining now => exact .inr ⟨fun _ h => (by cases h), by simpa only [SummarySpendGuard.ask, hon, if_false] using h⟩
  | allows now =>
    refine .inr ⟨fun _ h => (by cases h), ?_⟩
    simp only [SummarySpendGuard.ask, hon, if_false, SummarySpendGuard.allows]
    split
    · exact h
    · exact hprune
  | tryRecordCall now =>
    obtain ⟨-, heq⟩ | ⟨-, -, heq⟩ | ⟨hpast, hfree, heq⟩ := g.tryRecordCall_cases now hmax
    · exact .inr ⟨fun _ _ => by rw [heq], by rw [heq]; exact h⟩
    · exact .inr ⟨fun _ _ => by rw [heq], by rw [heq]; exact hprune⟩
    · refine .inl ⟨now, rfl, by rw [heq], ?_⟩
      -- the guard no longer waits, so the reservations are on record
      have hrecord : (k : Int) < g.maxCalls ∧ k ≤ (g.prune now).calls.countP (a ≤ ·) := by
        obtain hlater | hrec := hprune.held
        · rw [prune_backoffUntil] at hlater
          exact absurd (hlater.trans_le hpast) (not_lt.mpr hcb)
        · rwa [prune_maxCalls] at hrec
      have hcount := List.countP_le_length (l := (g.prune now).calls) (p := (a ≤ ·))
      rw [heq]
      obtain ⟨-, hrec⟩ | ⟨hroom, hrec⟩ :=
        (g.prune now).recordCallLocked_cases (by simpa using hpast : (g.prune now).backoffUntil ≤ now)
      · rw [hrec]
        refine ⟨by simpa using (by omega : ((k : Int) + 1) ≤ g.maxCalls), .inl ?_⟩
        have hmaxb := le_max_right 0 g.backoffSeconds
        change a ≤ now at hac
        simp only [prune_deadline, hexact.deadline_eq]
        linarith
      · rw [hrec]
        rw [prune_maxCalls] at hroom
        refine ⟨by simpa using (by omega : ((k : Int) + 1) ≤ g.maxCalls), .inr ⟨?_, ?_⟩⟩
        · simp only [prune_maxCalls]
          push_cast
          omega
        · have hone : [now].countP (a ≤ ·) = 1 := by simpa [SpendCall.time] using hac
          rw [List.countP_append, hone]
          omega

/-- From `a` on, the guard grants what is left of the budget before `b`. -/
theorem Holds.within_reserved {calls : List SpendCall} (h : g.Holds a b k) (hexact : g.Exact) (hmax : 0 < g.maxCalls)
    (hwait : g.windowSeconds ≤ g.backoffSeconds) (hab : b - a < g.windowSeconds)
    (hord : (calls.map SpendCall.time).Pairwise (· ≤ ·)) (hafter : ∀ c ∈ calls, a ≤ c.time) :
    ((k + within a b (g.reserved calls) : Nat) : Int) ≤ g.maxCalls := by
  induction calls generalizing g k with
  | nil => simpa [reserved, within] using h.le_maxCalls
  | cons c rest ih =>
    rw [List.map_cons, List.pairwise_cons] at hord
    by_cases hcb : c.time ≤ b
    · have hlimits := g.ask_limits c
      have hrest : ∀ {j : Nat}, (g.ask c).2.Holds a b j →
          ((j + within a b ((g.ask c).2.reserved rest) : Nat) : Int) ≤ g.maxCalls := by
        intro j hj
        have hih := ih hj (hexact.ask c) (by rw [hlimits.1]; exact hmax)
          (by rw [hlimits.2.1, hlimits.2.2.1]; exact hwait)
          (by rw [hlimits.2.1]; exact hab) hord.2 (fun d hd => hafter d (List.mem_cons_of_mem _ hd))
        rwa [hlimits.1] at hih
      obtain ⟨now, rfl, hok, hnext⟩ | ⟨hno, hnext⟩ := h.ask hexact hmax hwait hab (hafter c List.mem_cons_self) hcb
      · have hcount : within a b (g.reserved (.tryRecordCall now :: rest)) =
            within a b ((g.ask (.tryRecordCall now)).2.reserved rest) + 1 := by
          rw [reserved, if_pos hok]
          exact within_cons_of_le _ (hafter _ List.mem_cons_self) hcb
        rw [hcount, ← Nat.add_assoc, Nat.add_right_comm]
        exact hrest hnext
      · have hsame : g.reserved (c :: rest) = (g.ask c).2.reserved rest := by
          obtain heq | ⟨now, hc, hok, -⟩ := g.reserved_cons c rest
          · exact heq
          · rw [hno now hc] at hok
            cases hok
        rw [hsame]
        exact hrest hnext
    · -- every later use is past `b`
      have hzero : within a b (g.reserved (c :: rest)) = 0 := by
        refine List.countP_eq_zero.mpr fun t ht => ?_
        obtain ⟨d, hd, rfl⟩ := exists_time_of_mem_reserved ht
        have hlate : c.time ≤ d.time := by
          cases hd with
          | head => exact le_rfl
          | tail _ hd => exact hord.1 _ (List.mem_map_of_mem hd)
        simpa using fun _ : a ≤ d.time => (not_le.mp hcb).trans_le hlate
      rw [hzero]
      exact h.le_maxCalls

/-- No stretch shorter than the window holds more reservations than the budget. -/
theorem within_reserved_le {calls : List SpendCall} (hexact : g.Exact) (hmax : 0 < g.maxCalls)
    (hwait : g.windowSeconds ≤ g.backoffSeconds)
    (hab : b - a < g.windowSeconds) (hord : (calls.map SpendCall.time).Pairwise (· ≤ ·)) :
    (within a b (g.reserved calls) : Int) ≤ g.maxCalls := by
  induction calls generalizing g with
  | nil => simpa [reserved, within] using hmax.le
  | cons c rest ih =>
    by_cases hac : a ≤ c.time
    · have hnone : g.Holds a b 0 := ⟨by simpa using hmax.le, .inr ⟨by simpa using hmax, Nat.zero_le _⟩⟩
      rw [← Nat.zero_add (within a b _)]
      refine hnone.within_reserved hexact hmax hwait hab hord fun d hd => ?_
      rw [List.map_cons, List.pairwise_cons] at hord
      cases hd with
      | head => exact hac
      | tail _ hd => exact hac.trans (hord.1 _ (List.mem_map_of_mem hd))
    · have hlimits := g.ask_limits c
      have hih := ih (g := (g.ask c).2) (hexact.ask c) (by rw [hlimits.1]; exact hmax)
        (by rw [hlimits.2.1, hlimits.2.2.1]; exact hwait)
        (by rw [hlimits.2.1]; exact hab) (List.Pairwise.of_cons hord)
      rw [hlimits.1] at hih
      obtain heq | ⟨now, rfl, -, heq⟩ := g.reserved_cons c rest
      · rwa [heq]
      · rw [heq, within_cons_of_lt (t := now) _ (not_le.mp hac)]
        exact hih

end Rate

/-! ## The backoff -/

/-- A tripped guard, before the first reservation that may succeed. -/
structure Rests (g : SummarySpendGuard) (wake : ℚ) : Prop where
  calls_eq : g.calls = []
  backoffUntil_eq : g.backoffUntil = wake

section Backoff

variable {g : SummarySpendGuard} {u : ℚ}

theorem Rests.ask_eq {c : SpendCall} (h : g.Rests u) (hearly : ∀ now, c = .tryRecordCall now → now < u) :
    (g.ask c).2 = g := by
  cases c with
  | remaining now =>
    simp only [SummarySpendGuard.ask]
    split <;> rfl
  | allows now =>
    simp only [SummarySpendGuard.ask, SummarySpendGuard.allows]
    split
    · rfl
    · split
      · rfl
      · exact prune_of_nil h.calls_eq
  | tryRecordCall now =>
    have hnow : now < g.backoffUntil := by rw [h.backoffUntil_eq]; exact hearly now rfl
    simp only [SummarySpendGuard.ask, SummarySpendGuard.tryRecordCall, hnow, if_true]
    split <;> rfl

/-- Nothing but a reservation after the backoff wakes a tripped guard. -/
theorem Rests.after_eq {calls : List SpendCall} (h : g.Rests u) (hearly : ∀ now, .tryRecordCall now ∈ calls → now < u) :
    g.after calls = g := by
  induction calls with
  | nil => rfl
  | cons c rest ih =>
    rw [SummarySpendGuard.after, List.foldl_cons,
      h.ask_eq fun now hc => hearly now (by rw [hc]; exact List.mem_cons_self)]
    exact ih fun now hnow => hearly now (List.mem_cons_of_mem _ hnow)

theorem Rests.answer {now : ℚ} (h : g.Rests u) (hmax : 0 < g.maxCalls) :
    (g.ask (.tryRecordCall now)).1 = .granted (decide (u ≤ now)) := by
  have hempty : (g.prune now).calls.length = 0 := by rw [prune_of_nil h.calls_eq, h.calls_eq, List.length_nil]
  obtain ⟨hwait, heq⟩ | ⟨-, hfull, -⟩ | ⟨hpast, -, heq⟩ := g.tryRecordCall_cases now hmax
  · rw [h.backoffUntil_eq] at hwait
    rw [heq, decide_eq_false (not_le.mpr hwait)]
  · rw [hempty] at hfull
    exact absurd hfull (not_le.mpr hmax)
  · rw [h.backoffUntil_eq] at hpast
    rw [heq, decide_eq_true hpast]

theorem Trips.rests {t : ℚ} (h : g.Trips t) (hexact : g.Exact) (hmax : 0 < g.maxCalls) (hback : 0 ≤ g.backoffSeconds) :
    (g.ask (.tryRecordCall t)).2.Rests (t + g.backoffSeconds) := by
  obtain ⟨hok, hopens⟩ := h
  obtain ⟨-, heq⟩ | ⟨-, -, heq⟩ | ⟨-, -, heq⟩ := g.tryRecordCall_cases t hmax
  · rw [heq] at hok
    cases hok
  · rw [heq] at hok
    cases hok
  · rw [heq]
    have hrec : (g.prune t).recordCallLocked t =
        { g.prune t with calls := [], backoffUntil := (g.prune t).deadline t } :=
      if_pos hopens
    rw [hrec]
    exact ⟨rfl, by simp [hexact.deadline_eq, max_eq_right hback]⟩

end Backoff

theorem after_append (g : SummarySpendGuard) (xs ys : List SpendCall) : g.after (xs ++ ys) = (g.after xs).after ys :=
  List.foldl_append

theorem after_limits (g : SummarySpendGuard) (calls : List SpendCall) :
    (g.after calls).maxCalls = g.maxCalls ∧ (g.after calls).backoffSeconds = g.backoffSeconds ∧
      (g.after calls).round = g.round := by
  induction calls generalizing g with
  | nil => exact ⟨rfl, rfl, rfl⟩
  | cons c rest ih =>
    obtain ⟨hmax, hback, hround⟩ := ih (g.ask c).2
    obtain ⟨hmax', -, hback', hround'⟩ := g.ask_limits c
    exact ⟨hmax.trans hmax', hback.trans hback', hround.trans hround'⟩

/-- Without rounding, the rate bound holds whatever was recorded before, and a reservation that trips
the guard is the last one until the backoff is over; the next one then succeeds. -/
theorem spend_rate_bounded (g : SummarySpendGuard) (calls : List SpendCall) (hexact : g.Exact) (hmax : 0 < g.maxCalls)
    (hwindow : 0 ≤ g.windowSeconds) (hwait : g.windowSeconds ≤ g.backoffSeconds)
    (hord : (calls.map SpendCall.time).Pairwise (· ≤ ·)) :
    (∀ a b, b - a < g.windowSeconds → (within a b (g.reserved calls) : Int) ≤ g.maxCalls) ∧
      ∀ before t between now later, calls = before ++ .tryRecordCall t :: between ++ .tryRecordCall now :: later →
        (g.after before).Trips t →
          (now < t + g.backoffSeconds →
            ((g.after (before ++ .tryRecordCall t :: between)).ask (.tryRecordCall now)).1 = .granted false) ∧
          (t + g.backoffSeconds ≤ now → (∀ u, .tryRecordCall u ∈ between → u < t + g.backoffSeconds) →
            ((g.after (before ++ .tryRecordCall t :: between)).ask (.tryRecordCall now)).1 = .granted true) := by
  refine ⟨fun a b hab => within_reserved_le hexact hmax hwait hab hord,
    fun before t between now later hcalls htrips => ?_⟩
  obtain ⟨hmaxEq, hbackEq, hroundEq⟩ := g.after_limits before
  have hmaxAt : 0 < (g.after before).maxCalls := by rw [hmaxEq]; exact hmax
  have hrests : (((g.after before).ask (.tryRecordCall t)).2).Rests (t + g.backoffSeconds) := by
    rw [← hbackEq]
    exact htrips.rests (fun x => by rw [hroundEq, hexact]) hmaxAt (by rw [hbackEq]; exact hwindow.trans hwait)
  have hanswer : (∀ u, .tryRecordCall u ∈ between → u < t + g.backoffSeconds) →
      ((g.after (before ++ .tryRecordCall t :: between)).ask (.tryRecordCall now)).1 =
        .granted (decide (t + g.backoffSeconds ≤ now)) := by
    intro hearly
    have hstate : g.after (before ++ .tryRecordCall t :: between) = ((g.after before).ask (.tryRecordCall t)).2 := by
      rw [after_append]
      exact hrests.after_eq hearly
    rw [hstate]
    exact hrests.answer (by rw [(ask_limits _).1]; exact hmaxAt)
  constructor
  · intro hsoon
    -- the times are in order, so everything in between is as early
    have hearly : ∀ u, .tryRecordCall u ∈ between → u < t + g.backoffSeconds := by
      intro u hu
      rw [hcalls, List.map_append, List.pairwise_append] at hord
      have hle : u ≤ now := hord.2.2 u
        (List.mem_map.mpr ⟨_, List.mem_append_right _ (List.mem_cons_of_mem _ hu), rfl⟩) now
        (List.mem_map.mpr ⟨_, List.mem_cons_self, rfl⟩)
      exact hle.trans_lt hsoon
    rw [hanswer hearly, decide_eq_false (not_le.mpr hsoon)]
  · intro hlate hearly
    rw [hanswer hearly, decide_eq_true hlate]

/-- Two reservations trip a guard with a budget of two; it refuses the third until its backoff of
twenty seconds is over. -/
theorem spend_rate_bounded_pair :
    (within 0 5 (reserved ⟨2, 10, 20, [], 0, id⟩ [.tryRecordCall 1, .tryRecordCall 4, .tryRecordCall 5]) : Int) ≤ 2 ∧
      ((after ⟨2, 10, 20, [], 0, id⟩ [.tryRecordCall 1, .tryRecordCall 4]).ask (.tryRecordCall 5)).1 = .granted false :=
  have hbound := spend_rate_bounded ⟨2, 10, 20, [], 0, id⟩ [.tryRecordCall 1, .tryRecordCall 4, .tryRecordCall 5]
    (fun _ => rfl) (by decide) (by norm_num) (by norm_num) (by simp [SpendCall.time]; norm_num)
  ⟨hbound.1 0 5 (by norm_num),
    (hbound.2 [.tryRecordCall 1] 4 [] 5 [] rfl ⟨by decide +kernel, by unfold opensBackoff; decide +kernel⟩).1
      (by norm_num)⟩

/-- A guard of floats that waits for one window. -/
def floatGuard : SummarySpendGuard where
  maxCalls := 1
  windowSeconds := 600
  backoffSeconds := 600
  round := Rounding.binary64

/-- The end of the wait is rounded down: two reservations succeed less than 600 seconds apart. -/
theorem rounded_deadline_early :
    Rounding.binary64 (512 + 1 / 2 ^ 43) = 512 + 1 / 2 ^ 43 ∧
    (1112 : ℚ) - (512 + 1 / 2 ^ 43) < floatGuard.windowSeconds ∧
      ¬ (within (512 + 1 / 2 ^ 43) 1112
      (floatGuard.reserved [.tryRecordCall (512 + 1 / 2 ^ 43), .tryRecordCall 1112]) : Int) ≤
        floatGuard.maxCalls ∧
      floatGuard.Trips (512 + 1 / 2 ^ 43) ∧ (1112 : ℚ) < 512 + 1 / 2 ^ 43 + floatGuard.backoffSeconds ∧
      ((floatGuard.after [.tryRecordCall (512 + 1 / 2 ^ 43)]).ask (.tryRecordCall 1112)).1 = .granted true := by
  unfold Trips opensBackoff
  decide +kernel

/-! ## What is left at one moment -/

section Left

variable {g : SummarySpendGuard} {now : ℚ}

/-- The guard waits, or what it leaves on record is inside the window. -/
def Counts (g : SummarySpendGuard) (now : ℚ) : Prop :=
  now < g.backoffUntil ∨ ∀ t ∈ (g.prune now).calls, g.cutoff now ≤ t

theorem counts_of_sorted (h : g.calls.Pairwise (· ≤ ·)) : g.Counts now := by
  right
  unfold prune
  split
  · exact fun t ht => of_decide_eq_true (List.mem_filter.mp ht).2
  · next hhead =>
    cases hcalls : g.calls with
    | nil => simp
    | cons first rest =>
      rw [hcalls] at h
      have hfirst : g.cutoff now ≤ first := by simpa [hcalls] using hhead
      exact List.forall_mem_cons.mpr ⟨hfirst, fun t ht => hfirst.trans (List.rel_of_pairwise_cons h ht)⟩

theorem counts_of_young (h : ∀ t ∈ g.calls, g.cutoff now ≤ t) : g.prune now = g ∧ g.Counts now := by
  have hself : g.prune now = g := by
    unfold prune
    split
    · rw [List.filter_eq_self.mpr fun t ht => decide_eq_true (h t ht)]
    · rfl
  exact ⟨hself, .inr (hself.symm ▸ h)⟩

theorem Counts.remaining_eq (h : g.Counts now) (hpast : g.backoffUntil ≤ now) :
    g.remaining now = (g.maxCalls - (g.prune now).calls.length).toNat := by
  rw [remaining, if_neg (not_lt.mpr hpast), ← countP_prune (le_refl _),
    List.countP_eq_length.mpr fun t ht => decide_eq_true (h.resolve_left (not_lt.mpr hpast) t ht)]

/-- Tries at one time reserve a call each while the window has any left. -/
theorem Counts.length_reserved (n : Nat) : ∀ {g : SummarySpendGuard}, g.Counts now →
    0 < g.maxCalls → g.cutoff now ≤ now →
    now < g.deadline now → (g.reserved (List.replicate n (.tryRecordCall now))).length = min n (g.remaining now) := by
  induction n with
  | zero => simp [reserved]
  | succ n ih =>
    intro g h hmax hwindow hback
    rw [List.replicate_succ, reserved]
    obtain ⟨hwait, heq⟩ | ⟨hpast, hfull, heq⟩ | ⟨hpast, hfree, heq⟩ := g.tryRecordCall_cases now hmax
    · rw [heq, if_neg (by simp), ih h hmax hwindow hback, show g.remaining now = 0 from if_pos hwait]
      omega
    · obtain ⟨hself, hnext⟩ := @counts_of_young (g.prune now) now (by simpa using h.resolve_left (not_lt.mpr hpast))
      rw [heq, if_neg (by simp), ih hnext (by simpa) (by simpa)
        (by simpa), hnext.remaining_eq (by simpa), h.remaining_eq hpast, hself,
        prune_maxCalls]
      omega
    · have hyoung := h.resolve_left (not_lt.mpr hpast)
      rw [heq, if_pos rfl, List.length_cons, h.remaining_eq hpast]
      obtain ⟨hlast, hnext⟩ | ⟨hroom, hnext⟩ := (g.prune now).recordCallLocked_cases (by simpa using hpast)
      · -- the guard rests
        have hrests : now < ((g.prune now).recordCallLocked now).backoffUntil := by
          rw [hnext]
          simpa using hback
        have hcutoff : ((g.prune now).recordCallLocked now).cutoff now = g.cutoff now := by
          rw [hnext]
          exact prune_cutoff now
        have hdeadline : ((g.prune now).recordCallLocked now).deadline now = g.deadline now := by
          rw [hnext]
          exact prune_deadline now
        rw [ih (.inl hrests) (by rw [hnext]; simpa) (by rwa [hcutoff]) (by rwa [hdeadline]), remaining, if_pos hrests]
        simp only [prune_maxCalls] at hlast
        omega
      · have hcutoff : SummarySpendGuard.cutoff
            { g.prune now with calls := (g.prune now).calls ++ [now] } now = g.cutoff now :=
          prune_cutoff now
        have hdeadline : SummarySpendGuard.deadline { g.prune now with calls := (g.prune now).calls ++ [now] } now =
            g.deadline now := prune_deadline now
        obtain ⟨hself, hcounts⟩ := @counts_of_young { g.prune now with calls := (g.prune now).calls ++ [now] } now (by
          rw [hcutoff]
          exact List.forall_mem_append.mpr ⟨hyoung, List.forall_mem_singleton.mpr hwindow⟩)
        rw [hnext, ih hcounts (by simpa) (by rwa [hcutoff]) (by rwa [hdeadline]),
          hcounts.remaining_eq (by simpa), hself]
        simp only [prune_maxCalls, List.length_append, List.length_singleton] at hroom ⊢
        omega

end Left

/-- As many reservations are made at one moment as the guard says are left, as long as the window
does not end after it and the backoff does. -/
theorem reserved_remaining (g : SummarySpendGuard) (now : ℚ) (n : Nat) (hmax : 0 < g.maxCalls)
    (hwindow : g.cutoff now ≤ now)
    (hback : now < g.deadline now) (hsorted : g.calls.Pairwise (· ≤ ·)) :
    (g.reserved (List.replicate n (.tryRecordCall now))).length = min n (g.remaining now) :=
  (counts_of_sorted hsorted).length_reserved n hmax hwindow hback

theorem reserved_remaining_old :
    (reserved ⟨3, 10, 20, [1, 12], 0, Rounding.binary64⟩ (List.replicate 5 (.tryRecordCall 15))).length = 2 :=
  (reserved_remaining ⟨3, 10, 20, [1, 12], 0, Rounding.binary64⟩ 15 5 (by decide)
    (by decide +kernel) (by decide +kernel)
    (by norm_num)).trans (by decide +kernel)

end SummarySpendGuard

end Escalation
