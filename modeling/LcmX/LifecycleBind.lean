import LcmX.LifecycleProtocol

/-!
# The guard of a bind

A bind computes its plan from an unlocked read and writes it under a guard on
five columns. The plan also reads `last_rollover_at`, which the guard leaves
out: it is copied only from an unbound row, and a row becomes unbound again only
through a finalize, whose time the guard compares.
-/
namespace Lifecycle

/-! ## Times of distinct writes -/

def Event.time : Event → Option Int
  | .start _ _ => none
  | .step _ now => some now

/-- No two steps take the same time, and none takes a finalize or reset mark that the table has already. -/
structure DistinctTimes (s : System) (events : List Event) : Prop where
  nodup : (events.filterMap Event.time).Nodup
  fresh : ∀ now ∈ events.filterMap Event.time, ∀ c row, s.db.lifecycle.get c = some row →
    row.lastFinalizedAt ≠ some now ∧ row.lastResetAt ≠ some now

variable {call : Call} {r : Option Row} {e : Event} {events : List Event} {seen : Row}

/-- Each mark after a change is the time of the change or the mark before it. -/
theorem RowStep.marks {now : Int} {c : String} {row' : Row}
    (h : RowStep call now c r (some row')) :
    (row'.lastFinalizedAt = some now ∨ row'.lastFinalizedAt = r.bind Row.lastFinalizedAt) ∧
      (row'.lastResetAt = some now ∨ row'.lastResetAt = r.bind Row.lastResetAt) := by
  cases h with
  | bound => exact ⟨.inr rfl, .inr rfl⟩
  | first => exact ⟨.inr rfl, .inr rfl⟩
  | boundAtOnce => exact ⟨.inr rfl, .inr rfl⟩
  | firstAtOnce => exact ⟨.inr rfl, .inr rfl⟩
  | rebound => exact ⟨.inr rfl, .inr rfl⟩
  | finalized => exact ⟨.inl rfl, .inr rfl⟩
  | rolledOver => exact ⟨.inl rfl, .inl rfl⟩
  | rolledOverFirst => exact ⟨.inl rfl, .inl rfl⟩
  | advanced => exact ⟨.inr rfl, .inr rfl⟩
  | published => exact ⟨.inr rfl, .inr rfl⟩
  | @noted change row _ =>
    cases change with
    | reset => exact ⟨.inr rfl, .inl rfl⟩
    | debt kind size => exact ⟨.inr rfl, .inr rfl⟩
    | clearDebt => exact ⟨.inr rfl, .inr rfl⟩
    | maintenanceAttempt => exact ⟨.inr rfl, .inr rfl⟩

theorem next_start_db (s : System) (i : Nat) (request : Request) : (s.next (.start i request)).db = s.db := by
  simp only [System.next]
  split <;> rfl

/-- The times that are left of a run are distinct. -/
theorem DistinctTimes.next {s : System} (h : DistinctTimes s (e :: events)) :
    DistinctTimes (s.next e) events := by
  cases e with
  | start i request =>
    constructor
    · exact h.nodup
    · rw [next_start_db]
      exact h.fresh
  | step i t =>
    have hnodup : t ∉ events.filterMap Event.time ∧ (events.filterMap Event.time).Nodup := List.nodup_cons.mp h.nodup
    constructor
    · exact hnodup.2
    · intro now hnow c row hrow
      have hne : t ≠ now := fun he => hnodup.1 (he ▸ hnow)
      have hold := h.fresh now (List.mem_cons_of_mem _ hnow) c
      obtain hsame | ⟨j, t', he, hstep⟩ := next_row s (.step i t) c
      · exact hold row (hsame ▸ hrow)
      · cases he
        rw [hrow] at hstep
        obtain ⟨hfinal, hreset⟩ := hstep.marks
        cases hr : s.db.lifecycle.get c with
        | none =>
          rw [hr] at hfinal hreset
          constructor
          · cases hfinal with
            | inl hnew => simp [hnew, hne]
            | inr hnone => simp [hnone]
          · cases hreset with
            | inl hnew => simp [hnew, hne]
            | inr hnone => simp [hnone]
        | some row₀ =>
          rw [hr] at hfinal hreset
          constructor
          · cases hfinal with
            | inl hnew => simp [hnew, hne]
            | inr hkeep => exact hkeep ▸ (hold row₀ hr).1
          · cases hreset with
            | inl hnew => simp [hnew, hne]
            | inr hkeep => exact hkeep ▸ (hold row₀ hr).2

/-! ## A row since it was read -/

/-- None of the times is a mark of the row. -/
def Unused (seen : Row) (times : List Int) : Prop :=
  ∀ now ∈ times, seen.lastFinalizedAt ≠ some now ∧ seen.lastResetAt ≠ some now

theorem Unused.tail (h : Unused seen ((e :: events).filterMap Event.time)) :
    Unused seen (events.filterMap Event.time) := by
  intro now hnow
  apply h now
  rw [List.filterMap_cons]
  split
  · exact hnow
  · exact List.mem_cons_of_mem _ hnow

/-- An unbound row with the finalize mark of `seen` has its rollover time too. -/
def RolloverKept (seen : Row) (r : Option Row) : Prop :=
  ∀ row ∈ r, row.lastFinalizedAt = seen.lastFinalizedAt → row.currentSessionId = none →
    row.lastRolloverAt = seen.lastRolloverAt

theorem RolloverKept.step {now : Int} {c : String} {r' : Option Row}
    (h : RolloverKept seen r) (hnow : seen.lastFinalizedAt ≠ some now) (hstep : RowStep call now c r r') :
    RolloverKept seen r' := by
  intro row' hrow' hfinal hunbound
  rw [Option.mem_def] at hrow'
  subst hrow'
  cases hstep with
  | bound => simp [boundRow] at hunbound
  | first => simp [firstRow] at hunbound
  | boundAtOnce => simp [boundRow] at hunbound
  | firstAtOnce => simp [firstRow] at hunbound
  | rebound => simp at hunbound
  | finalized => exact absurd hfinal.symm hnow
  | rolledOver => exact absurd hfinal.symm hnow
  | rolledOverFirst => exact absurd hfinal.symm hnow
  | @advanced _ _ row => exact h row rfl hfinal hunbound
  | @published _ row => exact h row rfl hfinal hunbound
  | @noted change row _ =>
    cases change with
    | reset => exact h row rfl hfinal hunbound
    | debt kind size => exact h row rfl hfinal hunbound
    | clearDebt => exact h row rfl hfinal hunbound
    | maintenanceAttempt => exact h row rfl hfinal hunbound

theorem RolloverKept.run {c : String} : ∀ {s : System},
    RolloverKept seen (s.db.lifecycle.get c) → Unused seen (events.filterMap Event.time) →
      RolloverKept seen ((s.run events).db.lifecycle.get c) := by
  induction events with
  | nil => exact fun h _ => h
  | cons e events ih =>
    intro s h hunused
    apply ih _ hunused.tail
    obtain hsame | ⟨i, now, rfl, hstep⟩ := next_row s e c
    · rw [hsame]
      exact h
    · exact h.step (hunused now List.mem_cons_self).1 hstep

/-- The finalize and the reset mark of the row are those of `seen`. -/
def SameMarks (seen row : Row) : Prop := row.lastFinalizedAt = seen.lastFinalizedAt ∧ row.lastResetAt = seen.lastResetAt

/-- A mark that has changed does not come back while the row stays. -/
theorem sameMarks_of_run {c : String} : ∀ {s : System} {row row' : Row},
    s.db.lifecycle.get c = some row → (s.run events).db.lifecycle.get c = some row' → SameMarks seen row' →
      Unused seen (events.filterMap Event.time) → (∀ a b, events = a ++ b → (s.run a).db.lifecycle.get c ≠ none) →
        SameMarks seen row := by
  induction events with
  | nil =>
    intro s row row' hrow hrow' hmarks _ _
    rw [System.run_nil, hrow] at hrow'
    cases hrow'
    exact hmarks
  | cons e events ih =>
    intro s row row' hrow hrow' hmarks hunused hthere
    have hnext : (s.next e).db.lifecycle.get c ≠ none := hthere [e] events rfl
    obtain ⟨row₁, hrow₁⟩ := Option.ne_none_iff_exists'.mp hnext
    have hmarks₁ : SameMarks seen row₁ :=
      ih hrow₁ hrow' hmarks hunused.tail fun a b hab => hthere (e :: a) b (by rw [hab]; rfl)
    obtain hsame | ⟨i, now, rfl, hstep⟩ := next_row s e c
    · rw [hsame, hrow] at hrow₁
      cases hrow₁
      exact hmarks₁
    · rw [hrow, hrow₁] at hstep
      obtain ⟨hfinal, hreset⟩ := hstep.marks
      obtain ⟨hnot, hnot'⟩ := hunused now List.mem_cons_self
      constructor
      · cases hfinal with
        | inl hnew => exact absurd (hmarks₁.1.symm.trans hnew) hnot
        | inr hkeep => exact hkeep.symm.trans hmarks₁.1
      · cases hreset with
        | inl hnew => exact absurd (hmarks₁.2.symm.trans hnew) hnot'
        | inr hkeep => exact hkeep.symm.trans hmarks₁.2

/-! ## The write of a bind -/

/-- The session that a call may bind. -/
def Call.binds : Call → Option String
  | .bindRead session _ _ => some session
  | .bindWrite session _ _ _ => some session
  | .bindTransaction session _ => some session
  | .rebind session _ => some session
  | .rolloverRead _ _ new _ => some new
  | .rolloverWrite _ _ new _ => some new
  | _ => none

/-- No row is bound to the empty session id, and no call is about to bind it. -/
structure Named (s : System) : Prop where
  rows : ∀ c row, s.db.lifecycle.get c = some row → row.currentSessionId ≠ some ""
  calls : ∀ i, (s.processes i).call.binds ≠ some ""

/-- A call still binds after a step what it did before, or nothing. -/
theorem step_binds (call : Call) (now : Int) (legacy : List (Option String)) (db : Db) :
    (call.step now legacy db).1.binds = none ∨ (call.step now legacy db).1.binds = call.binds := by
  cases call with
  | bindRead session attempts conversation =>
    simp only [Call.step]
    split
    · exact .inl rfl
    · exact .inr rfl
  | bindWrite session attempts existing conversation =>
    simp only [Call.step]
    split
    · exact .inl rfl
    · split <;> exact .inr rfl
  | bindTransaction session conversation =>
    simp only [Call.step]
    split <;> exact .inl rfl
  | rebind session conversation =>
    simp only [Call.step]
    split <;> exact .inl rfl
  | finalize conversation session frontier =>
    simp only [Call.step]
    split
    · exact .inl rfl
    · split <;> exact .inl rfl
  | rolloverRead conversation old new frontier =>
    simp only [Call.step]
    split
    · exact .inl rfl
    · exact .inr rfl
  | rolloverWrite conversation old new finalized => exact .inl rfl
  | advanceRead conversation session frontier =>
    simp only [Call.step]
    split
    · exact .inl rfl
    · split <;> exact .inl rfl
  | advanceWrite conversation session frontier => exact .inl rfl
  | noteRead conversation change =>
    simp only [Call.step]
    split <;> exact .inl rfl
  | noteWrite conversation change => exact .inl rfl
  | prune kept maxAge => exact .inl rfl
  | append m => exact .inl rfl
  | publish p =>
    simp only [Call.step]
    split <;> exact .inl rfl
  | fetch conversation required =>
    simp only [Call.step]
    split <;> exact .inl rfl
  | returned state => exact .inl rfl
  | raised => exact .inl rfl

theorem RowStep.named {now : Int} {c : String} {row' : Row}
    (h : RowStep call now c r (some row')) (hcall : call.binds ≠ some "")
    (hrow : ∀ row, r = some row → row.currentSessionId ≠ some "") : row'.currentSessionId ≠ some "" := by
  cases h with
  | bound hc => exact fun he => hcall (by rw [hc]; exact he)
  | first hc => exact fun he => hcall (by rw [hc]; exact he)
  | boundAtOnce hc => exact fun he => hcall (by rw [hc]; exact he)
  | firstAtOnce hc => exact fun he => hcall (by rw [hc]; exact he)
  | rebound hc => exact fun he => hcall (by rw [hc]; exact he)
  | rolledOver hc => exact fun he => hcall (by rw [hc]; exact he)
  | rolledOverFirst hc => exact fun he => hcall (by rw [hc]; exact he)
  | @finalized session frontier row =>
    simp only [finalizedRow]
    split
    · simp
    · exact hrow row rfl
  | @advanced _ _ row => exact hrow row rfl
  | @published _ row => exact hrow row rfl
  | @noted change row =>
    cases change with
    | reset => exact hrow row rfl
    | debt kind size => exact hrow row rfl
    | clearDebt => exact hrow row rfl
    | maintenanceAttempt => exact hrow row rfl

/-- An event binds no empty session id, unless its request does. -/
theorem Named.next {s : System} (h : Named s)
    (hrequest : ∀ i request, e = .start i request → request.call.binds ≠ some "") : Named (s.next e) := by
  constructor
  · intro c row' hrow'
    obtain hsame | ⟨i, now, rfl, hstep⟩ := next_row s e c
    · exact h.rows c row' (hsame ▸ hrow')
    · rw [hrow'] at hstep
      exact hstep.named (h.calls i) fun row hrow => h.rows c row hrow
  · intro i
    cases e with
    | start j request =>
      simp only [System.next]
      split
      · by_cases hij : i = j
        · subst hij
          simpa using hrequest i request rfl
        · simpa [Function.update_of_ne hij] using h.calls i
      · exact h.calls i
    | step j now =>
      simp only [System.next]
      by_cases hij : i = j
      · subst hij
        rw [Function.update_self]
        cases step_binds (s.processes i).call now ((s.processes i).legacyIds s.db) s.db with
        | inl hnone => simp [hnone]
        | inr hkeep =>
          simp only [hkeep]
          exact h.calls i
      · rw [Function.update_of_ne hij]
        exact h.calls i

theorem bindFrontier_congr {row : Row} (session : String) (hguard : sameGuard seen row = true) :
    bindFrontier seen session = bindFrontier row session := by
  simp only [sameGuard, decide_eq_true_eq] at hguard
  obtain ⟨hcur, hlast, hfrontier, hfinal, hreset⟩ := hguard
  have hown : ownFinalized seen session = ownFinalized row session := by
    rw [ownFinalized, ownFinalized, notResetSince, notResetSince, hcur, hlast, hfinal, hreset]
  rw [bindFrontier, bindFrontier, hown, hfrontier]

/-- Under the guard, and with the rollover time kept, the stale decision is the fresh one. -/
theorem boundRow_eq {row : Row} {session : String} (now : Int) (hguard : sameGuard seen row = true)
    (hother : seen.currentSessionId ≠ some session) (hnamed : seen.currentSessionId ≠ some "")
    (hkept : seen.currentSessionId = none → row.lastRolloverAt = seen.lastRolloverAt) :
    boundRow seen session now row = boundRow row session now row := by
  have hf := bindFrontier_congr session hguard
  simp only [sameGuard, decide_eq_true_eq] at hguard
  obtain ⟨hcur, hlast, -⟩ := hguard
  have hr : bindRolloverAt seen session now = bindRolloverAt row session now := by
    unfold bindRolloverAt
    rw [hcur, hlast]
    cases hs : seen.currentSessionId with
    | none => rw [hkept hs]
    | some x =>
      -- A row bound to another session always takes the time of the bind.
      have hx : truthy (some x) = true := by
        simpa [truthy] using fun he => hnamed (by rw [hs, he])
      have hne : some x ≠ some session := hs ▸ hother
      rw [if_pos (.inl ⟨hx, hne⟩), if_pos (.inl ⟨hx, hne⟩)]
  rw [boundRow, boundRow, hf, hr]

end Lifecycle
