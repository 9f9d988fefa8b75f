import LcmX.RollupCalendar
import LcmX.RollupProtocol

/-!
# No rollup from a superseded snapshot

A mutation leaves an event in the outbox. Until a pass has expanded the day of
the event that lies in a row's period, the event is pending and the overlap
test of a publication sees it; when the day is expanded, the row loses its
lease. Nothing happens between the two.
-/
namespace RollupStore

open Gregorian

/-! ## The outbox -/

structure EventInv (s : Store) : Prop where
  nodup : (s.invalidations.map Event.eventId).Nodup
  below : ∀ e ∈ s.invalidations, e.eventId < s.nextEventId

/-- The event has these bounds and its expansion has not passed the day. -/
structure Awaits (scope : String) (lo hi : Rat) (day : Int) (e : Event) : Prop where
  scope : e.scope = scope
  coveredStart : e.coveredStart = lo
  coveredEnd : e.coveredEnd = hi
  next : ∀ next, e.nextDay = some next → next ≤ day

/-- The outbox row of the id still awaits the day. -/
def Pending (scope : String) (lo hi : Rat) (day : Int) (id : Nat) (outbox : List Event) : Prop :=
  ∃ e ∈ outbox, e.eventId = id ∧ Awaits scope lo hi day e

theorem drainDays_mem (last : Int) (n : Nat) : ∀ (current next : Int) (days : List Int),
    drainDays last n current = some (days, next) → ∀ day, current ≤ day → day < next → day ∈ days := by
  induction n with
  | zero =>
    intro current next days h day h1 h2
    cases h
    omega
  | succ n ih =>
    intro current next days h day h1 h2
    rw [drainDays] at h
    split at h
    · split at h
      · obtain ⟨r, hr, he⟩ := Option.map_eq_some_iff.mp h
        cases he
        by_cases hc : day = current
        · rw [hc]; exact List.mem_cons_self
        · exact List.mem_cons_of_mem _ (ih (current + 1) r.2 r.1 hr day (by omega) h2)
      · cases h
    · cases h
      omega

theorem eventDays_eq {e : Event} {first last : Int} (hle : e.coveredStart ≤ e.coveredEnd)
    (h1 : ¬ NearMidnight e.coveredStart) (h2 : ¬ NearMidnight e.coveredEnd) (h : eventDays e = some (first, last)) :
    first = utcDay e.coveredStart ∧ last = utcDay e.coveredEnd := by
  unfold eventDays at h
  split at h
  · rename_i a b ha hb
    have ha' := fromTimestamp_eq h1 ha
    have hb' := fromTimestamp_eq h2 hb
    have hmono := utcDay_mono hle
    rw [if_neg (by omega)] at h
    cases h
    exact ⟨ha', hb'⟩
  · cases h

theorem mem_dayKeys (kind : PeriodKind) (day : Int) (scope : String) :
    periodKey kind day scope ∈ dayKeys day scope := by
  cases kind <;> simp [dayKeys, aggregateKeys]

theorem expandEvent_some {e : Event} {remaining : Nat} {x : Expansion} (h : expandEvent remaining e = some x) :
    ∃ first last, eventDays e = some (first, last) ∧
      drainDays last remaining (e.nextDay.getD first) = some (x.days, x.next) ∧
      (x.finished = true ↔ last < x.next) := by
  obtain ⟨⟨first, last⟩, hdays, hx⟩ := Option.bind_eq_some_iff.mp h
  obtain ⟨r, hr, rfl⟩ := Option.map_eq_some_iff.mp hx
  exact ⟨first, last, hdays, hr, by simp⟩

/-- Inversion of the loop over the events. -/
theorem drainEvents_cons {e : Event} {rest : List Event} {remaining : Nat} {outbox : List Event} {plan : DrainPlan}
    (h : drainEvents (e :: rest) remaining outbox = some plan) :
    ∃ x, expandEvent remaining e = some x ∧
      ((x.finished = true ∧ (plan = ⟨expandedKeys e.scope x.days, dropEvent e outbox, x.days.length⟩ ∨
          ∃ p, drainEvents rest (remaining - x.days.length) (dropEvent e outbox) = some p ∧
            plan = ⟨expandedKeys e.scope x.days ++ p.keys, p.invalidations, x.days.length + p.days⟩)) ∨
        plan = ⟨expandedKeys e.scope x.days, resumeEvent e x.next outbox, x.days.length⟩) := by
  rw [drainEvents] at h
  obtain ⟨x, hx, hplan⟩ := Option.bind_eq_some_iff.mp h
  refine ⟨x, hx, ?_⟩
  split at hplan
  · rename_i hdone
    left
    refine ⟨hdone, ?_⟩
    split at hplan
    · exact Or.inl (Option.some.inj hplan).symm
    · obtain ⟨p, hp, he⟩ := Option.map_eq_some_iff.mp hplan
      exact Or.inr ⟨p, hp, he.symm⟩
  · exact Or.inr (Option.some.inj hplan).symm

section Pass

variable {scope : String} {lo hi : Rat} {day : Int} {id : Nat} (hle : lo ≤ hi)
  (hnear : ¬ NearMidnight lo ∧ ¬ NearMidnight hi) (hday : utcDay lo ≤ day ∧ day ≤ utcDay hi)

include hle hnear hday

/-- The pass takes up the event that awaits the day. The copy that it read may
resume earlier than the outbox row does. -/
theorem drainEvents_self {x : Event} {rest : List Event} {remaining : Nat} {outbox : List Event} {plan : DrainPlan}
    (hx : Awaits scope lo hi day x) (hp : Pending scope lo hi day x.eventId outbox)
    (h : drainEvents (x :: rest) remaining outbox = some plan) :
    Pending scope lo hi day x.eventId plan.invalidations ∨ ∀ kind, periodKey kind day scope ∈ plan.keys := by
  obtain ⟨y, hy, hcases⟩ := drainEvents_cons h
  obtain ⟨first, last, hdays, hrun, hfinished⟩ := expandEvent_some hy
  obtain ⟨rfl, rfl, rfl, hnext⟩ := hx
  obtain ⟨hfirst, hlast⟩ := eventDays_eq hle hnear.1 hnear.2 hdays
  have hstart : x.nextDay.getD first ≤ day := by
    cases hn : x.nextDay with
    | none =>
      rw [Option.getD_none, hfirst]
      exact hday.1
    | some next => exact hnext next hn
  -- the day is expanded once the next day to expand is past it
  have hkeys : day < y.next → ∀ kind, periodKey kind day x.scope ∈ expandedKeys x.scope y.days := fun hlt kind =>
    List.mem_flatMap.mpr ⟨day, drainDays_mem _ _ _ _ _ hrun day hstart hlt, mem_dayKeys kind day x.scope⟩
  have hlate : y.finished = true → day < y.next := fun hf => lt_of_le_of_lt (hlast ▸ hday.2) (hfinished.mp hf)
  rcases hcases with ⟨hdone, rfl | ⟨p, -, rfl⟩⟩ | rfl
  · exact Or.inr (fun kind => hkeys (hlate hdone) kind)
  · exact Or.inr (fun kind => List.mem_append_left _ (hkeys (hlate hdone) kind))
  · by_cases hlt : day < y.next
    · exact Or.inr (fun kind => hkeys hlt kind)
    · left
      obtain ⟨e, he, hid, hawaits⟩ := hp
      refine ⟨{ e with nextDay := some y.next }, List.mem_map.mpr ⟨e, he, if_pos hid⟩, hid, hawaits.scope,
        hawaits.coveredStart, hawaits.coveredEnd, ?_⟩
      intro next hn
      rw [← Option.some.inj hn]
      exact not_lt.mp hlt

/-- A pass leaves the event pending for the day, or marks the day's periods. -/
theorem drainEvents_pending (events : List Event) : ∀ (remaining : Nat) (outbox : List Event) (plan : DrainPlan),
    (∀ x ∈ events, x.eventId = id → Awaits scope lo hi day x) → Pending scope lo hi day id outbox →
    drainEvents events remaining outbox = some plan →
    Pending scope lo hi day id plan.invalidations ∨ ∀ kind, periodKey kind day scope ∈ plan.keys := by
  induction events with
  | nil =>
    intro remaining outbox plan _ hp h
    rw [drainEvents, Option.some.injEq] at h
    rw [← h]
    exact Or.inl hp
  | cons x rest ih =>
    intro remaining outbox plan hcopies hp h
    by_cases hxid : x.eventId = id
    · subst hxid
      exact drainEvents_self hle hnear hday (hcopies x List.mem_cons_self rfl) hp h
    · obtain ⟨e, he, hid, hawaits⟩ := hp
      have hne : e.eventId ≠ x.eventId := fun heq => hxid (heq.symm.trans hid)
      have hdrop : Pending scope lo hi day id (dropEvent x outbox) :=
        ⟨e, List.mem_filter.mpr ⟨he, by simpa using hne⟩, hid, hawaits⟩
      obtain ⟨y, -, hcases⟩ := drainEvents_cons h
      rcases hcases with ⟨-, rfl | ⟨p, hplan, rfl⟩⟩ | rfl
      · exact Or.inl hdrop
      · have hrest := ih _ _ p (fun z hz => hcopies z (List.mem_cons_of_mem x hz)) hdrop hplan
        exact hrest.imp_right (fun hk kind => List.mem_append_right _ (hk kind))
      · exact Or.inl ⟨e, List.mem_map.mpr ⟨e, he, if_neg hne⟩, hid, hawaits⟩

end Pass

/-! ## How a row evolves -/

/-- The row comes from a row with its id and key whose generation is not larger,
and smaller where the row has just been claimed; or its id is new. -/
def From (s : Store) (row : Row) : Prop :=
  (∃ r ∈ s.rows, row.rollupId = r.rollupId ∧ row.key = r.key ∧ r.generation ≤ row.generation ∧
    (row.status = .building → row = r ∨ r.generation < row.generation)) ∨ s.nextRollupId ≤ row.rollupId

variable {s : Store} {row : Row} {update : Row → Row}

theorem From.self (h : row ∈ s.rows) : From s row :=
  Or.inl ⟨row, h, rfl, rfl, Nat.le_refl _, fun _ => Or.inl rfl⟩

/-- An update that keeps id and key and does not lower the generation. -/
structure Advances (update : Row → Row) : Prop where
  id : ∀ r, (update r).rollupId = r.rollupId
  key : ∀ r, (update r).key = r.key
  generation : ∀ r, r.generation ≤ (update r).generation
  building : ∀ r, (update r).status = .building → update r = r ∨ r.generation < (update r).generation

theorem Advances.from (h : Advances update) {r : Row} (hr : r ∈ s.rows) :
    From s (update r) :=
  Or.inl ⟨r, hr, h.id r, h.key r, h.generation r, h.building r⟩

theorem advances_stale : Advances stale :=
  ⟨fun _ => rfl, fun _ => rfl, fun _ => Nat.le_succ _, fun r h => absurd h (idle_stale r).status⟩

theorem advances_seedUpdate : Advances seedUpdate where
  id := seedUpdate_id
  key := fun r => by unfold seedUpdate; split <;> rfl
  generation := fun r => by
    unfold seedUpdate
    split
    · exact Nat.le_refl _
    · exact Nat.le_succ _
  building := fun r h => by
    cases seedUpdate_or r with
    | inl he => exact Or.inl he
    | inr hi => exact absurd h hi.status

theorem advances_idle (hid : ∀ r, (update r).rollupId = r.rollupId)
    (hkey : ∀ r, (update r).key = r.key) (hgen : ∀ r, r.generation ≤ (update r).generation)
    (hidle : ∀ r, Idle (update r)) : Advances update :=
  ⟨hid, hkey, hgen, fun r h => absurd h (hidle r).status⟩

theorem from_upsertRow {key : Key} {fresh : Nat → Row}
    (hu : Advances update) (hf : ∀ id, (fresh id).rollupId = id) (h : row ∈ (upsertRow key fresh update s).rows) :
    From s row := by
  rcases mem_upsertRow h with hs | ⟨r, hr, -, rfl⟩ | rfl
  · exact From.self hs
  · exact hu.from hr
  · exact Or.inr (Nat.le_of_eq (hf _).symm)

theorem upsertRow_next (key : Key) (fresh : Nat → Row) (update : Row → Row) (s : Store) :
    s.nextRollupId ≤ (upsertRow key fresh update s).nextRollupId := by
  unfold upsertRow
  split
  · exact Nat.le_refl _
  · exact Nat.le_succ _

theorem From.trans {mid : Store} (hmid : ∀ r ∈ mid.rows, From s r)
    (hnext : s.nextRollupId ≤ mid.nextRollupId) (h : From mid row) : From s row := by
  rcases h with ⟨r, hr, hid, hkey, hgen, hb⟩ | hnew
  · rcases hmid r hr with ⟨r0, hr0, hid0, hkey0, hgen0, hb0⟩ | hnew
    · refine Or.inl ⟨r0, hr0, hid.trans hid0, hkey.trans hkey0, Nat.le_trans hgen0 hgen, fun hst => ?_⟩
      rcases hb hst with rfl | hlt
      · exact hb0 hst
      · exact Or.inr (Nat.lt_of_le_of_lt hgen0 hlt)
    · exact Or.inr (hid ▸ hnew)
  · exact Or.inr (Nat.le_trans hnext hnew)

theorem from_upsertKeys (hu : Advances update) (keys : List Key) : ∀ (s : Store),
    s.nextRollupId ≤ (upsertKeys update keys s).nextRollupId ∧ ∀ row ∈ (upsertKeys update keys s).rows, From s row := by
  induction keys with
  | nil => exact fun s => ⟨Nat.le_refl _, fun row h => From.self h⟩
  | cons key keys ih =>
    intro s
    obtain ⟨h1, h2⟩ := ih (upsertRow key (seeded key) update s)
    have hnext := upsertRow_next key (seeded key) update s
    refine ⟨Nat.le_trans hnext h1, fun row h => ?_⟩
    exact From.trans (fun r hr => from_upsertRow hu (fun _ => rfl) hr) hnext (h2 row h)

theorem from_map {p : Row → Prop} [DecidablePred p] (hu : Advances update)
    (h : row ∈ s.rows.map (fun r => if p r then update r else r)) : From s row := by
  obtain ⟨r, hr, rfl⟩ := List.mem_map.mp h
  by_cases hp : p r
  · rw [if_pos hp]
    exact hu.from hr
  · rw [if_neg hp]
    exact From.self hr

section Steps

variable (readIso : String → Option Int)

/-- Over one transaction ids are never reused and every row comes from a row. -/
theorem step_from (s : Store) (op : Op) :
    s.nextRollupId ≤ (step readIso s op).1.nextRollupId ∧ ∀ row ∈ (step readIso s op).1.rows, From s row := by
  have hself : s.nextRollupId ≤ s.nextRollupId ∧ ∀ row ∈ s.rows, From s row := ⟨Nat.le_refl _, fun row h => From.self h⟩
  have hdemote : ∀ reason, Advances (demote reason) := fun reason =>
    advances_idle (fun _ => rfl) (fun _ => rfl) (fun _ => Nat.le_succ _) (idle_demote reason)
  cases op with
  | upsertBuilding key now deadline nonce =>
    have hu : Advances (claimUpdate now deadline nonce) :=
      ⟨fun _ => rfl, fun _ => rfl, fun _ => Nat.le_succ _, fun _ _ => Or.inr (Nat.lt_succ_self _)⟩
    have hfrom : ∀ row ∈ (upsertRow key (claimFresh key now deadline nonce) (claimUpdate now deadline nonce) s).rows,
        From s row := fun row h => from_upsertRow hu (fun _ => rfl) h
    have hnext := upsertRow_next key (claimFresh key now deadline nonce) (claimUpdate now deadline nonce) s
    simp only [step, upsertBuilding]
    split <;> exact ⟨hnext, hfrom⟩
  | markReady token summary tokenCount ids fingerprint now =>
    simp only [step, markReady]
    split
    · split <;> exact hself
    · split
      · exact hself
      · split
        · exact ⟨Nat.le_refl _, fun row h => from_map (hdemote _) h⟩
        · split
          · exact ⟨Nat.le_refl _, fun row h => from_map (hdemote _) h⟩
          · have hp : Advances (publish summary tokenCount fingerprint now) :=
              advances_idle (fun _ => rfl) (fun _ => rfl) (fun _ => Nat.le_refl _) (fun r => ⟨rfl, by simp [publish]⟩)
            exact ⟨Nat.le_refl _, fun row h => from_map hp h⟩
  | markFailed token error now =>
    have hp : Advances (fun row : Row => { row with
        status := .failed, error := some error, failedAt := some now, leaseExpiresAt := none, leaseNonce := "" }) :=
      advances_idle (fun _ => rfl) (fun _ => rfl) (fun _ => Nat.le_refl _) (fun r => ⟨rfl, by simp⟩)
    exact ⟨Nat.le_refl _, fun row h => from_map hp h⟩
  | deferIncomplete token reason =>
    have hp : Advances (fun row : Row => { row with
        status := .stale, error := some reason, leaseExpiresAt := none, leaseNonce := "" }) :=
      advances_idle (fun _ => rfl) (fun _ => rfl) (fun _ => Nat.le_refl _) (fun r => ⟨rfl, by simp⟩)
    exact ⟨Nat.le_refl _, fun row h => from_map hp h⟩
  | resolveNoSource token =>
    simp only [step, resolveNoSource]
    split
    · exact ⟨Nat.le_refl _, fun row h => From.self (List.mem_of_mem_filter h)⟩
    · exact hself
  | markStaleForDay day scope =>
    simp only [step, markStaleForDay]
    split
    · exact hself
    · exact from_upsertKeys advances_stale _ s
  | staleAggregatesForDay day scope =>
    simp only [step, staleAggregatesForDay]
    split
    · exact hself
    · exact from_upsertKeys advances_stale _ s
  | upsertStale targets =>
    simp only [step, upsertStale]
    split
    · exact hself
    · exact from_upsertKeys advances_seedUpdate _ s
  | reclaimStaleBuilding cutoff limit => exact ⟨Nat.le_refl _, fun row h => from_map advances_stale h⟩
  | purgeRollupsForSources nodeIds =>
    exact ⟨Nat.le_refl _, fun row h => from_map
      (advances_idle purge_id (fun _ => rfl) (fun _ => Nat.le_succ _) idle_purge) h⟩
  | drainInvalidations eventLimit dayBudget =>
    simp only [step, drainInvalidations]
    split
    · exact hself
    · split
      · exact hself
      · rename_i plan _
        exact from_upsertKeys advances_stale plan.keys { s with invalidations := plan.invalidations }
  | insertNode n =>
    simp only [step, insertNode]
    split <;> exact hself
  | deleteNode nodeId =>
    simp only [step, deleteNode]
    split <;> exact hself
  | updateNode n =>
    simp only [step, updateNode]
    split <;> exact hself

end Steps

end RollupStore
