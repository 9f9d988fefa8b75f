import LcmX.RollupSupersession

/-!
# The drain resumes exactly

The outbox stands for the days it has not expanded. A pass expands the first of
them, as many as its budgets allow, and leaves an outbox that stands for the rest.
-/
namespace RollupStore

open Gregorian

/-! ## Days left -/

def daysFrom (first last : Int) : List Int := (List.range (last + 1 - first).toNat).map fun n : Nat => first + n

/-- The days of an event that no pass has expanded. -/
def remainingDays (e : Event) : List Int :=
  match eventDays e with
  | some (first, last) => daysFrom (e.nextDay.getD first) last
  | none => []

/-- An event whose days end before the last date, and which resumes inside them. -/
def Expandable (e : Event) : Prop :=
  ∃ first last, eventDays e = some (first, last) ∧ last < maxOrdinal ∧
    ∀ next, e.nextDay = some next → first ≤ next ∧ next ≤ last

/-- A day of an event, with the scope it is marked in. -/
abbrev Task := Nat × String × Int

def tasksOf (e : Event) : List Task := (remainingDays e).map fun day => (e.eventId, e.scope, day)

def work (outbox : List Event) : List Task := outbox.flatMap tasksOf

def taskKeys (log : List Task) : List Key := log.flatMap fun task => dayKeys task.2.2 task.2.1

variable {e : Event} {outbox events rest : List Event} {remaining : Nat} {first last current : Int}

theorem daysFrom_nil (h : last < first) : daysFrom first last = [] := by
  rw [daysFrom, show (last + 1 - first).toNat = 0 by omega]
  rfl

theorem daysFrom_cons (h : first ≤ last) : daysFrom first last = first :: daysFrom (first + 1) last := by
  unfold daysFrom
  rw [show (last + 1 - first).toNat = (last + 1 - (first + 1)).toNat + 1 by omega,
    List.range_succ_eq_map, List.map_cons,
    List.map_map]
  congr 1
  · omega
  · apply List.map_congr_left
    intro n _
    rw [Function.comp_apply]
    push_cast
    omega

theorem length_daysFrom (first last : Int) : (daysFrom first last).length = (last + 1 - first).toNat := by
  rw [daysFrom, List.length_map, List.length_range]

theorem mem_daysFrom {day : Int} : day ∈ daysFrom first last ↔ first ≤ day ∧ day ≤ last := by
  rw [daysFrom, List.mem_map]
  constructor
  · rintro ⟨n, hn, rfl⟩
    rw [List.mem_range] at hn
    omega
  · intro h
    exact ⟨(day - first).toNat, List.mem_range.mpr (by omega), by omega⟩

theorem nodup_daysFrom (first last : Int) : (daysFrom first last).Nodup := by
  apply List.nodup_range.map
  intro a b hab
  dsimp only at hab
  omega

theorem drop_daysFrom (last : Int) (n : Nat) : ∀ first : Int, n ≤ (daysFrom first last).length →
    (daysFrom first last).drop n = daysFrom (first + n) last := by
  induction n with
  | zero =>
    intro first _
    rw [List.drop_zero, Int.natCast_zero, Int.add_zero]
  | succ n ih =>
    intro first hn
    rw [length_daysFrom] at hn
    rw [daysFrom_cons (by omega), List.drop_succ_cons, ih (first + 1) (by rw [length_daysFrom]; omega)]
    congr 1
    push_cast
    omega

theorem eventDays_le (h : eventDays e = some (first, last)) : first ≤ last := by
  unfold eventDays at h
  split at h
  · split at h
    · cases h
      omega
    · cases h
      omega
  · cases h

theorem remainingDays_eq (h : eventDays e = some (first, last)) :
    remainingDays e = daysFrom (e.nextDay.getD first) last := by
  rw [remainingDays, h]

/-- An event that is pending has a day left. -/
theorem Expandable.ne_nil (h : Expandable e) : remainingDays e ≠ [] := by
  obtain ⟨first, last, hdays, -, hnext⟩ := h
  have hle := eventDays_le hdays
  rw [remainingDays_eq hdays]
  cases hn : e.nextDay with
  | none =>
    rw [Option.getD_none, daysFrom_cons hle]
    exact List.cons_ne_nil _ _
  | some next =>
    rw [Option.getD_some, daysFrom_cons (hnext next hn).2]
    exact List.cons_ne_nil _ _

/-! ## One event -/

/-- Draining takes the next days in their order, and says where it stopped. -/
theorem drainDays_spec (hlast : last < maxOrdinal) (n : Nat) : ∀ current : Int, current ≤ last + 1 →
    drainDays last n current =
      some ((daysFrom current last).take n, current + min n (daysFrom current last).length) := by
  induction n with
  | zero =>
    intro current _
    simp [drainDays]
  | succ n ih =>
    intro current hcurrent
    rw [drainDays]
    by_cases hle : current ≤ last
    · rw [if_pos hle, if_pos (by omega), ih (current + 1) (by omega), daysFrom_cons hle,
        Option.map_some, List.take_succ_cons,
        List.length_cons]
      congr 2
      omega
    · rw [if_neg hle, daysFrom_nil (by omega)]
      simp

theorem expandEvent_spec (h : Expandable e) (hdays : eventDays e = some (first, last)) (remaining : Nat) :
    expandEvent remaining e = some ⟨(remainingDays e).take remaining,
      e.nextDay.getD first + min remaining (remainingDays e).length, (remainingDays e).length ≤ remaining⟩ := by
  obtain ⟨first', last', hdays', hlast, hnext⟩ := h
  rw [hdays] at hdays'
  cases hdays'
  have hle := eventDays_le hdays
  have hstart : e.nextDay.getD first ≤ last := by
    cases hn : e.nextDay with
    | none => exact hle
    | some next => exact (hnext next hn).2
  unfold expandEvent
  rw [hdays, Option.bind_some, remainingDays_eq hdays]
  dsimp only
  rw [drainDays_spec hlast remaining _ (by omega), Option.map_some]
  congr 2
  rw [length_daysFrom, decide_eq_decide]
  omega

/-- What a stop inside an event leaves of it. -/
theorem resumed_event (h : Expandable e) (hdays : eventDays e = some (first, last))
    (hshort : remaining < (remainingDays e).length) :
    Expandable { e with nextDay := some (e.nextDay.getD first + remaining) } ∧
      remainingDays { e with nextDay := some (e.nextDay.getD first + remaining) } =
        (remainingDays e).drop remaining := by
  obtain ⟨first', last', hdays', hlast, hnext⟩ := h
  rw [hdays] at hdays'
  cases hdays'
  have hsame : eventDays { e with nextDay := some (e.nextDay.getD first + remaining) } = some (first, last) := hdays
  rw [remainingDays_eq hdays] at hshort ⊢
  constructor
  · refine ⟨first, last, hsame, hlast, fun next hn => ?_⟩
    cases hn
    rw [length_daysFrom] at hshort
    cases hn : e.nextDay with
    | none =>
      rw [hn, Option.getD_none] at hshort
      rw [Option.getD_none]
      omega
    | some next =>
      rw [hn, Option.getD_some] at hshort
      rw [Option.getD_some]
      have hfirst := (hnext next hn).1
      omega
  · rw [remainingDays_eq hsame, Option.getD_some, drop_daysFrom last remaining _ (by omega)]

/-! ## One pass -/

/-- Outbox rows under distinct ids, each of them expandable. -/
structure Resumable (outbox : List Event) : Prop where
  nodup : (outbox.map Event.eventId).Nodup
  expandable : ∀ e ∈ outbox, Expandable e

theorem Resumable.tail (h : Resumable (e :: outbox)) : Resumable outbox :=
  ⟨(List.nodup_cons.mp h.nodup).2, fun x hx => h.expandable x (List.mem_cons_of_mem e hx)⟩

theorem Resumable.fresh (h : Resumable (e :: outbox)) {x : Event} (hx : x ∈ outbox) : x.eventId ≠ e.eventId := by
  intro heq
  exact (List.nodup_cons.mp h.nodup).1 (heq ▸ List.mem_map_of_mem hx)

theorem dropEvent_cons (h : Resumable (e :: outbox)) : dropEvent e (e :: outbox) = outbox := by
  rw [dropEvent, List.filter_cons_of_neg (by simp), List.filter_eq_self]
  intro x hx
  simpa using h.fresh hx

theorem resumeEvent_cons (h : Resumable (e :: outbox)) (next : Int) :
    resumeEvent e next (e :: outbox) = { e with nextDay := some next } :: outbox := by
  rw [resumeEvent, List.map_cons, if_pos rfl]
  congr 1
  conv_rhs => rw [← List.map_id outbox]
  apply List.map_congr_left
  intro x hx
  rw [if_neg (h.fresh hx), id]

theorem length_tasksOf (e : Event) : (tasksOf e).length = (remainingDays e).length := List.length_map _

theorem taskKeys_tasksOf (e : Event) (n : Nat) :
    taskKeys ((tasksOf e).take n) = expandedKeys e.scope ((remainingDays e).take n) := by
  rw [tasksOf, ← List.map_take, taskKeys, expandedKeys, List.flatMap_map]

theorem work_cons (e : Event) (outbox : List Event) : work (e :: outbox) = tasksOf e ++ work outbox := List.flatMap_cons

theorem taskKeys_append (a b : List Task) : taskKeys (a ++ b) = taskKeys a ++ taskKeys b := List.flatMap_append

/-- A row of the outbox before a row after, the resume day apart. -/
def SameEvent (e e' : Event) : Prop := e' = { e with nextDay := e'.nextDay }

/-- The plan of a pass over the first events expands the first tasks. -/
structure Expands (events outbox : List Event) (remaining : Nat) (plan : DrainPlan) : Prop where
  keys : plan.keys = taskKeys ((work events).take remaining)
  days : plan.days = ((work events).take remaining).length
  rest : work outbox = (work events).take remaining ++ work plan.invalidations
  resumable : Resumable plan.invalidations
  same : ∀ x' ∈ plan.invalidations, ∃ x ∈ outbox, SameEvent x x'

/-- Draining expands the events in their order, as far as the budget goes. -/
theorem drainEvents_spec (events : List Event) : ∀ (rest : List Event) (remaining : Nat), 0 < remaining →
    Resumable (events ++ rest) →
      ∃ plan, drainEvents events remaining (events ++ rest) = some plan ∧
      Expands events (events ++ rest) remaining plan := by
  induction events with
  | nil =>
    intro rest remaining _ h
    refine ⟨_, rfl, ?_⟩
    exact ⟨by simp [work, taskKeys], by simp [work], by simp [work], h, fun x hx => ⟨x, hx, rfl⟩⟩
  | cons e events ih =>
    intro rest remaining hpos h
    have hexp := h.expandable e List.mem_cons_self
    obtain ⟨first, last, hdays, -⟩ := id hexp
    rw [List.cons_append] at h ⊢
    unfold drainEvents
    rw [expandEvent_spec hexp hdays remaining, Option.bind_some]
    by_cases hfit : (remainingDays e).length ≤ remaining
    · rw [if_pos (by simpa using hfit), dropEvent_cons h]
      dsimp only
      rw [List.take_of_length_le hfit]
      by_cases hspent : remaining - (remainingDays e).length = 0
      · -- The budget ends with the event.
        rw [if_pos hspent]
        have htake : (work (e :: events)).take remaining = tasksOf e := by
          rw [work_cons, show remaining = (tasksOf e).length by rw [length_tasksOf]; omega, List.take_left]
        refine ⟨_, rfl, ?_, ?_, ?_, h.tail, fun x hx => ⟨x, List.mem_cons_of_mem e hx, rfl⟩⟩
        · have hkeys := taskKeys_tasksOf e (tasksOf e).length
          rw [List.take_length, length_tasksOf, List.take_length] at hkeys
          rw [htake, hkeys]
        · rw [htake, length_tasksOf]
        · rw [htake, work_cons]
      · rw [if_neg hspent]
        obtain ⟨plan, hplan, hspec⟩ := ih rest (remaining - (remainingDays e).length) (by omega) h.tail
        rw [hplan, Option.map_some]
        have htake : (work (e :: events)).take remaining =
            tasksOf e ++ (work events).take (remaining - (remainingDays e).length) := by
          rw [work_cons, List.take_append, length_tasksOf, List.take_of_length_le (by rw [length_tasksOf]; exact hfit)]
        refine ⟨_, rfl, ?_, ?_, ?_, hspec.resumable, fun x' hx' => ?_⟩
        · have hkeys := taskKeys_tasksOf e (tasksOf e).length
          rw [List.take_length, length_tasksOf, List.take_length] at hkeys
          rw [htake, taskKeys_append, hkeys, hspec.keys]
        · rw [htake, List.length_append, length_tasksOf, hspec.days]
        · rw [htake, work_cons, hspec.rest, List.append_assoc]
        · obtain ⟨x, hx, hsame⟩ := hspec.same x' hx'
          exact ⟨x, List.mem_cons_of_mem e hx, hsame⟩
    · -- The pass stops inside the event.
      rw [if_neg (by simpa using hfit), resumeEvent_cons h]
      have hshort : remaining < (remainingDays e).length := by omega
      dsimp only
      rw [Nat.min_eq_left hshort.le]
      obtain ⟨hexp', hdays'⟩ := resumed_event hexp hdays hshort
      have htake : (work (e :: events)).take remaining = (tasksOf e).take remaining := by
        rw [work_cons, List.take_append_of_le_length (by rw [length_tasksOf]; omega)]
      refine ⟨_, rfl, ?_, ?_, ?_, ⟨h.nodup, fun x hx => ?_⟩, fun x' hx' => ?_⟩
      · rw [htake, taskKeys_tasksOf]
      · rw [htake, List.length_take, List.length_take, length_tasksOf]
      · rw [htake, work_cons, work_cons]
        unfold tasksOf
        rw [hdays', ← List.append_assoc, ← List.map_take, ← List.map_append, List.take_append_drop]
      · cases List.mem_cons.mp hx with
        | inl heq => exact heq ▸ hexp'
        | inr hin => exact h.expandable x (List.mem_cons_of_mem e hin)
      · cases List.mem_cons.mp hx' with
        | inl heq => exact ⟨e, List.mem_cons_self, by rw [heq]; rfl⟩
        | inr hin => exact ⟨x', List.mem_cons_of_mem e hin, rfl⟩

/-! ## Tasks once -/

theorem mem_work {task : Task} : task ∈ work outbox ↔
    ∃ e ∈ outbox, e.eventId = task.1 ∧ e.scope = task.2.1 ∧ task.2.2 ∈ remainingDays e := by
  rw [work, List.mem_flatMap]
  constructor
  · rintro ⟨e, he, hin⟩
    obtain ⟨day, hday, rfl⟩ := List.mem_map.mp hin
    exact ⟨e, he, rfl, rfl, hday⟩
  · rintro ⟨e, he, hid, hscope, hday⟩
    exact ⟨e, he, List.mem_map.mpr ⟨task.2.2, hday, by rw [hid, hscope]⟩⟩

theorem nodup_remainingDays (e : Event) : (remainingDays e).Nodup := by
  unfold remainingDays
  split
  · exact nodup_daysFrom _ _
  · exact List.nodup_nil

theorem nodup_work (h : Resumable outbox) : (work outbox).Nodup := by
  induction outbox with
  | nil => exact List.nodup_nil
  | cons e outbox ih =>
    rw [work_cons]
    apply List.Nodup.append
    · apply (nodup_remainingDays e).map
      intro a b hab
      simpa using hab
    · exact ih h.tail
    · intro task htask hrest
      obtain ⟨day, -, rfl⟩ := List.mem_map.mp htask
      obtain ⟨x, hx, hid, -⟩ := mem_work.mp hrest
      exact h.fresh hx hid

theorem last_mem_remainingDays (h : Expandable e) (hdays : eventDays e = some (first, last)) :
    last ∈ remainingDays e := by
  obtain ⟨first', last', hdays', -, hnext⟩ := h
  rw [hdays] at hdays'
  cases hdays'
  rw [remainingDays_eq hdays, mem_daysFrom]
  cases hn : e.nextDay with
  | none => exact ⟨eventDays_le hdays, le_refl last⟩
  | some next => exact ⟨(hnext next hn).2, le_refl last⟩

theorem work_ne_nil (h : Resumable outbox) (hne : outbox ≠ []) : work outbox ≠ [] := by
  obtain ⟨e, outbox, rfl⟩ := List.exists_cons_of_ne_nil hne
  have hdays := (h.expandable e List.mem_cons_self).ne_nil
  rw [work_cons]
  intro hnil
  have hzero := congrArg List.length (List.append_eq_nil_iff.mp hnil).1
  rw [length_tasksOf, List.length_nil] at hzero
  exact hdays (List.length_eq_zero_iff.mp hzero)

/-! ## Passes -/

/-- What one pass does, with the tasks that it expands. -/
structure PassSpec (eventLimit dayBudget : Int) (s : Store) (log : List Task) (s' : Store) : Prop where
  result : drainInvalidations eventLimit dayBudget s = (s', .count log.length)
  marks : s' = staleKeys (taskKeys log) { s with invalidations := s'.invalidations }
  resumed : work s.invalidations = log ++ work s'.invalidations
  bounded : log.length ≤ dayBudget.toNat
  progress : s.invalidations ≠ [] → log ≠ []
  -- The row of an event goes with its last day.
  deleted : ∀ e ∈ s.invalidations, ∀ first last, eventDays e = some (first, last) →
    ((e.eventId, e.scope, last) ∈ log ↔ ∀ e' ∈ s'.invalidations, e'.eventId ≠ e.eventId)
  same : ∀ e' ∈ s'.invalidations, ∃ e ∈ s.invalidations, SameEvent e e'

theorem SameEvent.eventDays {e e' : Event} (h : SameEvent e e') :
    RollupStore.eventDays e' = RollupStore.eventDays e := by
  rw [h]
  rfl

/-- A pass drains, within its limits, to an outbox that can be resumed. -/
theorem pass_spec {s : Store} (h : Resumable s.invalidations) {eventLimit dayBudget : Int} (hlimit : 0 < eventLimit)
    (hbudget : 0 < dayBudget) :
    ∃ log s', PassSpec eventLimit dayBudget s log s' ∧ Resumable s'.invalidations := by
  have hsplit := List.take_append_drop eventLimit.toNat s.invalidations
  obtain ⟨plan, hplan, hspec⟩ := drainEvents_spec (s.invalidations.take eventLimit.toNat)
    (s.invalidations.drop eventLimit.toNat) dayBudget.toNat (by omega) (by rw [hsplit]; exact h)
  rw [hsplit] at hplan hspec
  have houtbox : (staleKeys plan.keys { s with invalidations := plan.invalidations }).invalidations =
      plan.invalidations :=
    (upsertKeys_outbox stale plan.keys { s with invalidations := plan.invalidations }).1
  refine ⟨(work (s.invalidations.take eventLimit.toNat)).take dayBudget.toNat, _, ⟨?_, ?_, ?_, ?_, ?_, ?_, ?_⟩,
    by rw [houtbox]; exact hspec.resumable⟩
  · unfold drainInvalidations
    rw [if_neg (by omega), hplan]
    dsimp only
    rw [hspec.days]
  · rw [houtbox, hspec.keys]
  · rw [houtbox]
    exact hspec.rest
  · exact List.length_take_le _ _
  · intro hne hnil
    have htake : s.invalidations.take eventLimit.toNat ≠ [] := by
      rw [Ne, List.take_eq_nil_iff]
      rintro (hzero | hempty)
      · omega
      · exact hne hempty
    have hsub : Resumable (s.invalidations.take eventLimit.toNat) :=
      ⟨h.nodup.sublist ((List.take_sublist _ _).map _), fun x hx => h.expandable x (List.mem_of_mem_take hx)⟩
    rw [List.take_eq_nil_iff] at hnil
    cases hnil with
    | inl hzero => omega
    | inr hempty => exact work_ne_nil hsub htake hempty
  · intro e he first last hdays
    rw [houtbox]
    have hin : (e.eventId, e.scope, last) ∈ work s.invalidations :=
      mem_work.mpr ⟨e, he, rfl, rfl, last_mem_remainingDays (h.expandable e he) hdays⟩
    have hnodup := nodup_work h
    rw [hspec.rest] at hin hnodup
    constructor
    · intro hlog e' he' hid
      obtain ⟨x, hx, hsame⟩ := hspec.same e' he'
      have hxid : x.eventId = e'.eventId := by rw [hsame]
      have hxe : x = e := List.inj_on_of_nodup_map h.nodup hx he (hxid.trans hid)
      subst hxe
      have hlast := last_mem_remainingDays (hspec.resumable.expandable e' he') (hsame.eventDays.trans hdays)
      have hscope : e'.scope = x.scope := by rw [hsame]
      exact List.disjoint_of_nodup_append hnodup hlog (mem_work.mpr ⟨e', he', hid, hscope, hlast⟩)
    · intro hnone
      cases List.mem_append.mp hin with
      | inl hlog => exact hlog
      | inr hrest =>
        obtain ⟨e', he', hid, -⟩ := mem_work.mp hrest
        exact absurd hid (hnone e' he')
  · rw [houtbox]
    exact hspec.same

/-- Passes one after the other, each with the tasks that it expands. -/
inductive Passes : Store → List (Int × Int) → List (List Task) → Store → Prop
  | nil (s : Store) : Passes s [] [] s
  | cons {s mid s' : Store} {limits : Int × Int} {passes : List (Int × Int)} {log : List Task} {logs : List (List Task)}
      (first : PassSpec limits.1 limits.2 s log mid) (rest : Passes mid passes logs s') :
      Passes s (limits :: passes) (log :: logs) s'

theorem Passes.work {s s' : Store} {passes : List (Int × Int)} {logs : List (List Task)} (h : Passes s passes logs s') :
    RollupStore.work s.invalidations = logs.flatten ++ RollupStore.work s'.invalidations := by
  induction h with
  | nil s => rfl
  | cons first rest ih => rw [first.resumed, ih, List.flatten_cons, List.append_assoc]

/-- Passes drain one after the other, each from where the last one stopped. -/
theorem passes_spec (passes : List (Int × Int)) : ∀ s : Store, Resumable s.invalidations →
    (∀ p ∈ passes, 0 < p.1 ∧ 0 < p.2) → ∃ logs s', Passes s passes logs s' ∧ Resumable s'.invalidations := by
  induction passes with
  | nil => exact fun s h _ => ⟨[], s, .nil s, h⟩
  | cons limits passes ih =>
    intro s h hpos
    obtain ⟨hlimit, hbudget⟩ := hpos limits List.mem_cons_self
    obtain ⟨log, mid, hfirst, hmid⟩ := pass_spec h hlimit hbudget
    obtain ⟨logs, s', hrest, hs'⟩ := ih mid hmid fun p hp => hpos p (List.mem_cons_of_mem limits hp)
    exact ⟨log :: logs, s', .cons hfirst hrest, hs'⟩

theorem Passes.empty {s s' : Store} {passes : List (Int × Int)} {logs : List (List Task)} (h : Passes s passes logs s')
    (hempty : s.invalidations = []) : s'.invalidations = [] := by
  induction h with
  | nil s => exact hempty
  | cons first rest ih =>
    apply ih
    rw [List.eq_nil_iff_forall_not_mem]
    intro e' he'
    obtain ⟨e, he, -⟩ := first.same e' he'
    rw [hempty] at he
    cases he

/-- Each pass that finds an event takes a task off the work. -/
theorem Passes.shrinks {s s' : Store} {passes : List (Int × Int)} {logs : List (List Task)}
    (h : Passes s passes logs s') :
    s'.invalidations = [] ∨
      passes.length + (RollupStore.work s'.invalidations).length ≤ (RollupStore.work s.invalidations).length := by
  induction h with
  | nil s => exact .inr (by simp)
  | @cons s mid s' limits passes log logs first rest ih =>
    by_cases hne : s.invalidations = []
    · exact .inl ((Passes.cons first rest).empty hne)
    · cases ih with
      | inl hempty => exact .inl hempty
      | inr hle =>
        have hlog := List.length_pos_of_ne_nil (first.progress hne)
        rw [first.resumed, List.length_append, List.length_cons]
        exact .inr (by omega)

/-- The days of each event are expanded once, in order, and a finite outbox is emptied. -/
theorem drain_resumes (s : Store) (hresumable : Resumable s.invalidations) (passes : List (Int × Int))
    (hpositive : ∀ p ∈ passes, 0 < p.1 ∧ 0 < p.2) :
    ∃ logs s', Passes s passes logs s' ∧
      work s.invalidations = logs.flatten ++ work s'.invalidations ∧ (work s.invalidations).Nodup ∧
      (∀ e ∈ s.invalidations, ∀ first last, eventDays e = some (first, last) → ∀ day,
        (e.eventId, e.scope, day) ∈ work s.invalidations ↔ e.nextDay.getD first ≤ day ∧ day ≤ last) ∧
      ((work s.invalidations).length ≤ passes.length → s'.invalidations = []) := by
  obtain ⟨logs, s', hpasses, hresumable'⟩ := passes_spec passes s hresumable hpositive
  refine ⟨logs, s', hpasses, hpasses.work, nodup_work hresumable, fun e he first last hdays day => ?_, fun hlen => ?_⟩
  · rw [← mem_daysFrom, ← remainingDays_eq hdays, mem_work]
    constructor
    · rintro ⟨x, hx, hid, -, hday⟩
      have hxe : x = e := List.inj_on_of_nodup_map hresumable.nodup hx he hid
      exact hxe ▸ hday
    · intro hday
      exact ⟨e, he, rfl, rfl, hday⟩
  · cases hpasses.shrinks with
    | inl hempty => exact hempty
    | inr hle =>
      by_contra hne
      have hpos := List.length_pos_of_ne_nil (work_ne_nil hresumable' hne)
      omega

/-- Three days, stored the wrong way round. -/
def reversedSpan : Store where
  invalidations := [⟨1, 1, "s", 1728172800, 1728000000, none, .insert⟩]
  nextEventId := 2

theorem drain_resumes_reversedSpan :
    ∃ logs s', Passes reversedSpan [(1, 2), (1, 2), (1, 2)] logs s' ∧ s'.invalidations = [] := by
  have hresumable : Resumable reversedSpan.invalidations := by
    refine ⟨by decide, fun e he => ?_⟩
    rw [List.mem_singleton.mp he]
    exact ⟨739163, 739165, by decide +kernel, by decide, fun next hn => by cases hn⟩
  obtain ⟨logs, s', hpasses, -, -, -, hempty⟩ :=
    drain_resumes reversedSpan hresumable [(1, 2), (1, 2), (1, 2)] (by decide)
  exact ⟨logs, s', hpasses, hempty (by decide +kernel)⟩

/-- An event of the last date: the drain steps past the end of the calendar. -/
def lastDate : Store := run (fun _ => none) (initial true) [.insertNode ⟨1, "s", 253402214400, none, none⟩]

/-- No pass empties this outbox, whatever its budgets. -/
theorem lastDate_stays : lastDate.invalidations ≠ [] ∧ ∀ eventLimit dayBudget : Int, 0 < eventLimit → 0 < dayBudget →
    drainInvalidations eventLimit dayBudget lastDate = (lastDate, .raised) := by
  refine ⟨by decide +kernel, fun eventLimit dayBudget hlimit hbudget => ?_⟩
  have hone : lastDate.invalidations = [⟨1, 1, "s", 253402214400, 253402214400, none, .insert⟩] := by decide +kernel
  have hdays : eventDays ⟨1, 1, "s", 253402214400, 253402214400, none, .insert⟩ =
      some (maxOrdinal, maxOrdinal) := by decide +kernel
  obtain ⟨n, hn⟩ := Nat.exists_eq_add_of_lt (show 0 < eventLimit.toNat by omega)
  obtain ⟨m, hm⟩ := Nat.exists_eq_add_of_lt (show 0 < dayBudget.toNat by omega)
  have hraise : drainEvents (lastDate.invalidations.take eventLimit.toNat) dayBudget.toNat
      lastDate.invalidations = none := by
    rw [hone, hn, hm, Nat.zero_add, Nat.zero_add, List.take_succ_cons, List.take_nil, drainEvents]
    unfold expandEvent
    rw [hdays, Option.bind_some]
    dsimp only
    rw [Option.getD_none, drainDays, if_pos le_rfl, if_neg (by decide)]
    rfl
  unfold drainInvalidations
  rw [if_neg (by omega), hraise]

/-! ## Resume days of reachable outboxes -/

/-- An event resumes on a day of its own. -/
def InSpan (e : Event) : Prop :=
  ∀ next, e.nextDay = some next → ∃ first last, eventDays e = some (first, last) ∧ first ≤ next ∧ next ≤ last

theorem drainDays_le (last : Int) (n : Nat) : ∀ (current next : Int) (days : List Int),
    drainDays last n current = some (days, next) → current ≤ next := by
  induction n with
  | zero =>
    intro current next days h
    cases h
    omega
  | succ n ih =>
    intro current next days h
    rw [drainDays] at h
    split at h
    · split at h
      · obtain ⟨r, hr, he⟩ := Option.map_eq_some_iff.mp h
        cases he
        have hle := ih (current + 1) r.2 r.1 hr
        omega
      · cases h
    · cases h
      omega

theorem inSpan_resumed (h : InSpan e) {x : Expansion} (hx : expandEvent remaining e = some x)
    (hstop : x.finished = false) :
    InSpan { e with nextDay := some x.next } := by
  obtain ⟨first, last, hdays, hrun, hfinished⟩ := expandEvent_some hx
  have hle := drainDays_le _ _ _ _ _ hrun
  intro next hn
  cases hn
  refine ⟨first, last, hdays, ?_, ?_⟩
  · cases hn : e.nextDay with
    | none =>
      rw [hn] at hle
      exact hle
    | some next =>
      obtain ⟨first', last', hdays', hfirst, -⟩ := h next hn
      rw [hdays] at hdays'
      cases hdays'
      rw [hn] at hle
      exact hfirst.trans hle
  · by_contra hgt
    rw [hfinished.mpr (by omega)] at hstop
    cases hstop

/-- Every day that a drain invalidates is in the span of its event. -/
theorem drainEvents_inSpan (events : List Event) : ∀ (remaining : Nat) (outbox : List Event) (plan : DrainPlan),
    (∀ x ∈ events, x ∈ outbox) → (events.map Event.eventId).Nodup → (outbox.map Event.eventId).Nodup →
    (∀ x ∈ outbox, InSpan x) → drainEvents events remaining outbox = some plan →
      ∀ x ∈ plan.invalidations, InSpan x := by
  induction events with
  | nil =>
    intro remaining outbox plan _ _ _ hspan h
    cases h
    exact hspan
  | cons e rest ih =>
    intro remaining outbox plan hsub hnd hout hspan h
    have he : e ∈ outbox := hsub e List.mem_cons_self
    have hdrop : ∀ x ∈ dropEvent e outbox, InSpan x := fun x hx => hspan x (List.mem_filter.mp hx).1
    rw [drainEvents] at h
    obtain ⟨x, hx, h⟩ := Option.bind_eq_some_iff.mp h
    split at h
    · split at h
      · cases h
        exact hdrop
      · obtain ⟨p, hp, rfl⟩ := Option.map_eq_some_iff.mp h
        rw [List.map_cons, List.nodup_cons] at hnd
        apply ih _ _ p _ hnd.2 (hout.sublist (List.filter_sublist.map Event.eventId)) hdrop hp
        intro y hy
        refine List.mem_filter.mpr ⟨hsub y (List.mem_cons_of_mem e hy), ?_⟩
        have hne : y.eventId ≠ e.eventId := fun heq => hnd.1 (heq ▸ List.mem_map_of_mem hy)
        simpa using hne
    · next hstop =>
      cases h
      intro y hy
      obtain ⟨z, hz, rfl⟩ := List.mem_map.mp hy
      by_cases hid : z.eventId = e.eventId
      · rw [if_pos hid, List.inj_on_of_nodup_map hout hz he hid]
        exact inSpan_resumed (hspan e he) hx (by simpa using hstop)
      · rw [if_neg hid]
        exact hspan z hz

/-- An operation keeps every event resuming in its own span. -/
theorem inSpan_step (readIso : String → Option Int) {s : Store} (hinv : EventInv s)
    (h : ∀ e ∈ s.invalidations, InSpan e) (op : Op) :
    ∀ e ∈ (step readIso s op).1.invalidations, InSpan e := by
  cases step_outbox readIso s op with
  | inl hd =>
    obtain ⟨plan, eventLimit, dayBudget, -, hplan, hs'⟩ := hd
    rw [hs', (upsertKeys_outbox stale plan.keys { s with invalidations := plan.invalidations }).1]
    apply drainEvents_inSpan _ _ _ plan (fun x hx => List.mem_of_mem_take hx) _ hinv.nodup h hplan
    exact hinv.nodup.sublist ((List.take_sublist _ _).map Event.eventId)
  | inr ha =>
    obtain ⟨operation, h1, -⟩ := ha
    rw [h1]
    have hall : ∀ (nodes : List Node) (s : Store), (∀ e ∈ s.invalidations, InSpan e) →
        ∀ e ∈ (announce operation nodes s).invalidations, InSpan e := by
      intro nodes
      induction nodes with
      | nil => exact fun s h => h
      | cons n nodes ih =>
        intro s h
        apply ih
        intro e he
        cases List.mem_append.mp he with
        | inl hold => exact h e hold
        | inr hnew =>
          rw [List.mem_singleton.mp hnew]
          intro next hn
          cases hn
    exact hall _ s h

/-- Whatever has run, the outbox resumes where it may, as far as its days can be dated. -/
theorem resumable_stateAt (readIso : String → Option Int) (hasSummaryNodes : Bool) (ops : List Op) (k : Nat)
    (hdated : ∀ e ∈ (stateAt readIso hasSummaryNodes ops k).invalidations,
      ∃ first last, eventDays e = some (first, last) ∧ last < maxOrdinal) :
    Resumable (stateAt readIso hasSummaryNodes ops k).invalidations := by
  have hspan : ∀ e ∈ (stateAt readIso hasSummaryNodes ops k).invalidations, InSpan e := by
    apply (stateAt_induction (P := fun s => EventInv s ∧ ∀ e ∈ s.invalidations, InSpan e)
      (i := 0) _ _ k (Nat.zero_le k)).2
    · exact ⟨eventInv_stateAt 0, by intro e he; cases he⟩
    · intro j op _ hop hj
      exact ⟨eventInv_step readIso hj.1 op, inSpan_step readIso hj.1 hj.2 op⟩
  refine ⟨(eventInv_stateAt k).nodup, fun e he => ?_⟩
  obtain ⟨first, last, hdays, hlast⟩ := hdated e he
  refine ⟨first, last, hdays, hlast, fun next hn => ?_⟩
  obtain ⟨first', last', hdays', hbounds⟩ := hspan e he next hn
  rw [hdays] at hdays'
  cases hdays'
  exact hbounds

/-- A node of three days, and a pass that has a budget of one. -/
def cutShort : List Op := [.insertNode ⟨1, "s", 1728000000, none, some 1728172800⟩, .drainInvalidations 1 1]

theorem resumable_stateAt_cutShort : Resumable (stateAt (fun _ => none) true cutShort 2).invalidations := by
  refine resumable_stateAt _ _ _ _ fun e he => ?_
  have hone : (stateAt (fun _ => none) true cutShort 2).invalidations =
      [⟨1, 1, "s", 1728000000, 1728172800, some 739164, .insert⟩] := by decide +kernel
  rw [hone] at he
  cases List.mem_singleton.mp he
  exact ⟨739163, 739165, by decide +kernel, by decide⟩

end RollupStore
