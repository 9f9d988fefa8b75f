import LcmX.LifecycleBind

/-!
# The frontier of a session

`current_frontier_store_id` may only grow while one session stays bound, and a
session that binds again after its own finalize goes on from its frontier. Two
writers do not look: a rollover resets the frontier of whatever session is bound,
and a finalize takes its frontier and its time from the caller.
-/
namespace Lifecycle

/-- The row before the write of process `i` lets the write keep the frontier. -/
structure Careful (call : Call) (now : Int) (c : String) (row : Row) : Prop where
  /-- A rollover does not land on a row of its new session: bound to it, or last finalized by it and unbound. -/
  rollover : ∀ old new finalized, call = .rolloverWrite c old new finalized →
    row.currentSessionId ≠ some new ∧ (row.currentSessionId = none → row.lastFinalizedSessionId ≠ some new)
  /-- The caller's frontier, or that of the session's own earlier finalize, is not behind the row. -/
  frontier : ∀ session frontier, call = .finalize c session frontier → row.currentSessionId = some session →
    row.currentFrontierStoreId ≤ frontier ∨ (row.lastFinalizedSessionId = some session ∧ notResetSince row = true ∧
      row.currentFrontierStoreId ≤ row.lastFinalizedFrontierStoreId)
  /-- An unbound row is finalized again only by the session that finalized it last. -/
  unbound : ∀ session frontier, call = .finalize c session frontier → row.currentSessionId = none →
    ∀ last ∈ row.lastFinalizedSessionId, last = session
  /-- The caller's time is not before the reset of the row. -/
  time : ∀ session frontier, call = .finalize c session frontier → ∀ reset ∈ row.lastResetAt, reset ≤ now

/-- Every step of the run finds the row of `c` in a state that it keeps. -/
def CarefulRun (c : String) (s : System) (events : List Event) : Prop :=
  ∀ a i now b, events = a ++ .step i now :: b → ∀ row, (s.run a).db.lifecycle.get c = some row →
    Careful ((s.run a).processes i).call now c row

/-! ## Calls in flight -/

/-- No bind is about to write a row that it read as bound to its session. -/
def Unfounded (s : System) : Prop :=
  ∀ i session attempts seen c, (s.processes i).call = .bindWrite session attempts (some seen) c →
    seen.currentSessionId ≠ some session

variable {call : Call} {events : List Event}

/-- A bind that goes on to write has seen another session. -/
theorem step_bindWrite {now : Int} {legacy : List (Option String)} {db : Db} {session c : String}
    {attempts : Nat} {seen : Row} (h : (call.step now legacy db).1 = .bindWrite session attempts (some seen) c) :
    seen.currentSessionId ≠ some session := by
  cases call with
  | bindRead session' attempts' conversation =>
    simp only [Call.step] at h
    split at h
    · cases h
    · next hbound =>
      simp only [Call.bindWrite.injEq] at h
      obtain ⟨rfl, -, hseen, -⟩ := h
      obtain ⟨st, hst, rfl⟩ := Option.map_eq_some_iff.mp hseen
      simpa [hst, boundTo] using hbound
  | bindWrite session' attempts' existing conversation =>
    simp only [Call.step] at h
    split at h
    · cases h
    · split at h <;> cases h
  | bindTransaction session' conversation =>
    simp only [Call.step] at h
    split at h <;> cases h
  | rebind session' conversation =>
    simp only [Call.step] at h
    split at h <;> cases h
  | finalize conversation session' frontier =>
    simp only [Call.step] at h
    split at h
    · cases h
    · simp only at h
      split at h <;> cases h
  | rolloverRead conversation old new frontier =>
    simp only [Call.step] at h
    split at h <;> cases h
  | rolloverWrite conversation old new finalized => cases h
  | advanceRead conversation session' frontier =>
    simp only [Call.step] at h
    split at h
    · cases h
    · split at h <;> cases h
  | advanceWrite conversation session' frontier => cases h
  | noteRead conversation change =>
    simp only [Call.step] at h
    split at h <;> cases h
  | noteWrite conversation change => cases h
  | prune kept maxAge => cases h
  | append m => cases h
  | publish p =>
    simp only [Call.step] at h
    split at h <;> cases h
  | fetch conversation required =>
    simp only [Call.step] at h
    split at h <;> cases h
  | returned state => cases h
  | raised => cases h

theorem Unfounded.next {s : System} (h : Unfounded s) (e : Event) : Unfounded (s.next e) := by
  intro i session attempts seen c hcall
  cases e with
  | start j request =>
    simp only [System.next] at hcall
    split at hcall
    · by_cases hij : i = j
      · subst hij
        simp only [Function.update_self] at hcall
        cases request <;> cases hcall
      · simp only [Function.update_of_ne hij] at hcall
        exact h i session attempts seen c hcall
    · exact h i session attempts seen c hcall
  | step j now =>
    simp only [System.next] at hcall
    by_cases hij : i = j
    · subst hij
      rw [Function.update_self] at hcall
      exact step_bindWrite hcall
    · rw [Function.update_of_ne hij] at hcall
      exact h i session attempts seen c hcall

theorem Unfounded.run : ∀ {s : System}, Unfounded s → Unfounded (s.run events) := by
  induction events with
  | nil => exact fun h => h
  | cons e events ih => exact fun h => ih (h.next e)

/-! ## One session bound -/

theorem RowStep.frontier_le {now : Int} {c : String} {row row' : Row}
    (h : RowStep call now c (some row) (some row'))
    (hwrite : ∀ session attempts seen, call = .bindWrite session attempts (some seen) c →
      seen.currentSessionId ≠ some session)
    (hcareful : Careful call now c row) (hbound : row.currentSessionId ≠ none)
    (hsame : row'.currentSessionId = row.currentSessionId) :
    row.currentFrontierStoreId ≤ row'.currentFrontierStoreId := by
  cases h with
  | @bound session attempts seen _ hcall hguard =>
    simp only [sameGuard, decide_eq_true_eq] at hguard
    exact absurd (hguard.1.symm.trans hsame.symm) (hwrite session attempts seen hcall)
  | boundAtOnce _ hother => exact absurd hsame.symm hother
  | rebound _ hown =>
    simp only [ownFinalized, decide_eq_true_eq] at hown
    exact absurd hown.1 hbound
  | @finalized session frontier _ _ =>
    simp only [finalizedRow] at hsame ⊢
    split
    · next hmine => simp [hmine] at hsame
    · exact le_rfl
  | rolledOver hcall => exact absurd hsame.symm (hcareful.rollover _ _ _ hcall).1
  | advanced => exact le_max_left _ _
  | published => exact le_max_left _ _
  | @noted change _ _ =>
    cases change with
    | reset => exact le_rfl
    | debt kind size => exact le_rfl
    | clearDebt => exact le_rfl
    | maintenanceAttempt => exact le_rfl

/-! ## Back after an own finalize -/

/-- The session finalized the unbound row last, at `frontier` or above, with no reset since. -/
structure Resumable (session : String) (frontier : Int) (row : Row) : Prop where
  unbound : row.currentSessionId = none
  own : row.lastFinalizedSessionId = some session
  kept : notResetSince row = true
  enough : frontier ≤ row.lastFinalizedFrontierStoreId

theorem Resumable.bindFrontier {session : String} {frontier : Int} {row : Row} (h : Resumable session frontier row) :
    frontier ≤ Lifecycle.bindFrontier row session := by
  have hown : ownFinalized row session = true := by simp [ownFinalized, h.unbound, h.own, h.kept]
  rw [Lifecycle.bindFrontier, if_pos hown]
  exact h.enough

theorem notResetSince_finalized {session : String} {frontier now : Int} {row : Row}
    (h : ∀ reset ∈ row.lastResetAt, reset ≤ now) : notResetSince (finalizedRow session frontier now row) = true := by
  simpa [notResetSince, finalizedRow, Option.all_eq_true] using h

/-- A careful finalize of the bound session leaves the row to come back to. -/
theorem resumable_finalized {session : String} {frontier now : Int} {c : String} {row : Row}
    (hbound : row.currentSessionId = some session) (hcareful : Careful (.finalize c session frontier) now c row) :
    Resumable session row.currentFrontierStoreId (finalizedRow session frontier now row) := by
  constructor
  · simp [finalizedRow, hbound]
  · rfl
  · exact notResetSince_finalized (hcareful.time session frontier rfl)
  · simp only [finalizedRow]
    have henough := hcareful.frontier session frontier rfl hbound
    split
    · next hown =>
      cases henough with
      | inl hle => exact hle.trans (le_max_left _ _)
      | inr hle => exact hle.2.2.trans (le_max_right _ _)
    · next hother =>
      cases henough with
      | inl hle => exact hle
      | inr hle => exact absurd ⟨hle.1, hle.2.1⟩ hother

/-- A careful step keeps the frontier that a session can resume. -/
theorem RowStep.resumable {now : Int} {c session : String} {frontier : Int} {row row' : Row}
    (h : RowStep call now c (some row) (some row')) (hres : Resumable session frontier row)
    (hcareful : Careful call now c row) (hreset : call ≠ .noteWrite c .reset)
    (hunbound : row'.currentSessionId = none) :
    Resumable session frontier row' := by
  cases h with
  | bound => cases hunbound
  | boundAtOnce => cases hunbound
  | rebound => cases hunbound
  | rolledOver => cases hunbound
  | @finalized session' frontier' _ hcall =>
    have hsame : session = session' := hcareful.unbound session' frontier' hcall hres.unbound session hres.own
    subst hsame
    constructor
    · exact hunbound
    · rfl
    · exact notResetSince_finalized (hcareful.time session frontier' hcall)
    · have hown : row.lastFinalizedSessionId = some session ∧ notResetSince row = true := ⟨hres.own, hres.kept⟩
      simp only [finalizedRow, if_pos hown]
      exact hres.enough.trans (le_max_right _ _)
  | advanced _ hbound =>
    simp only [boundTo, decide_eq_true_eq] at hbound
    exact absurd (hres.unbound.symm.trans hbound) (by simp)
  | published _ _ hbound =>
    simp only [boundTo, decide_eq_true_eq] at hbound
    exact absurd (hres.unbound.symm.trans hbound) (by simp)
  | @noted change _ hcall =>
    cases change with
    | reset => exact absurd hcall hreset
    | debt kind size => exact ⟨hres.unbound, hres.own, hres.kept, hres.enough⟩
    | clearDebt => exact ⟨hres.unbound, hres.own, hres.kept, hres.enough⟩
    | maintenanceAttempt => exact ⟨hres.unbound, hres.own, hres.kept, hres.enough⟩

theorem RowStep.resumes {now : Int} {c session : String} {frontier : Int} {row row' : Row}
    (h : RowStep call now c (some row) (some row')) (hres : Resumable session frontier row)
    (hcareful : Careful call now c row) (hback : row'.currentSessionId = some session) :
    frontier ≤ row'.currentFrontierStoreId := by
  cases h with
  | @bound session' attempts seen _ _ hguard =>
    cases hback
    simp only [boundRow, bindFrontier_congr session hguard]
    exact hres.bindFrontier
  | boundAtOnce =>
    cases hback
    exact hres.bindFrontier
  | rebound =>
    cases hback
    exact hres.enough
  | rolledOver hcall =>
    cases hback
    exact absurd hres.own ((hcareful.rollover _ _ _ hcall).2 hres.unbound)
  | finalized =>
    simp only [finalizedRow, hres.unbound] at hback
    split at hback <;> cases hback
  | advanced => exact absurd (hres.unbound.symm.trans hback) (by simp)
  | published => exact absurd (hres.unbound.symm.trans hback) (by simp)
  | @noted change _ _ =>
    have hcur : (change.write now row).currentSessionId = row.currentSessionId := by cases change <;> rfl
    exact absurd (hres.unbound.symm.trans (hcur.symm.trans hback)) (by simp)

/-! ## Whole runs -/

theorem CarefulRun.append {c : String} {s : System} {a b : List Event} (h : CarefulRun c s (a ++ b)) :
    CarefulRun c (s.run a) b := by
  intro x i now y hb row hrow
  rw [← System.run_append] at hrow ⊢
  exact h (a ++ x) i now y (by rw [hb, List.append_assoc]) row hrow

/-- After every prefix of the events the conversation has a row, and it is unbound. -/
def StaysUnbound (c : String) (s : System) (events : List Event) : Prop :=
  ∀ x y, events = x ++ y → ∃ row, (s.run x).db.lifecycle.get c = some row ∧ row.currentSessionId = none

/-- No step of the events resets the conversation. -/
def NoReset (c : String) (s : System) (events : List Event) : Prop :=
  ∀ x i now y, events = x ++ .step i now :: y → ((s.run x).processes i).call ≠ .noteWrite c .reset

/-- While it is unbound and not reset, a conversation keeps what a resume needs. -/
theorem resumable_run {c session : String} {frontier : Int} : ∀ {s : System} {row : Row},
    s.db.lifecycle.get c = some row → Resumable session frontier row → CarefulRun c s events → StaysUnbound c s events →
      NoReset c s events → ∃ row', (s.run events).db.lifecycle.get c = some row' ∧ Resumable session frontier row' := by
  induction events with
  | nil => exact fun hrow hres _ _ _ => ⟨_, hrow, hres⟩
  | cons e events ih =>
    intro s row hrow hres hcareful hunbound hreset
    obtain ⟨row₁, hrow₁, hfree⟩ := hunbound [e] events rfl
    have hres₁ : Resumable session frontier row₁ := by
      obtain hsame | ⟨i, now, rfl, hstep⟩ := next_row s e c
      · have hkeep : row₁ = row := Option.some.inj (hrow₁.symm.trans (hsame.trans hrow))
        exact hkeep ▸ hres
      · have hrow₁' : (s.next (.step i now)).db.lifecycle.get c = some row₁ := hrow₁
        rw [hrow, hrow₁'] at hstep
        exact hstep.resumable hres (hcareful [] i now events rfl row hrow) (hreset [] i now events rfl) hfree
    apply ih hrow₁ hres₁ (CarefulRun.append (a := [e]) hcareful)
    · intro x y hxy
      exact hunbound (e :: x) y (by rw [hxy]; rfl)
    · intro x i now y hxy
      exact hreset (e :: x) i now y (by rw [hxy]; rfl)

theorem RowStep.of_finalize {now : Int} {c session : String} {frontier : Int} {row row' : Row}
    (h : RowStep (.finalize c session frontier) now c (some row) (some row')) :
      row' = finalizedRow session frontier now row := by
  cases h with
  | finalized hcall =>
    cases hcall
    rfl
  | bound hcall => cases hcall
  | boundAtOnce hcall => cases hcall
  | rebound hcall => cases hcall
  | rolledOver hcall => cases hcall
  | advanced hcall => cases hcall
  | published hcall => cases hcall
  | noted hcall => cases hcall

/-- The frontier of a session that stays bound does not decrease at this step. -/
def FrontierKept (c : String) (s : System) (e : Event) : Prop :=
  ∀ session row row', s.db.lifecycle.get c = some row → (s.next e).db.lifecycle.get c = some row' →
    row.currentSessionId = some session → row'.currentSessionId = some session →
      row.currentFrontierStoreId ≤ row'.currentFrontierStoreId

/-- The step finalizes the bound session, which comes back after the events `m` at the step `e`: the row is not reset
and binds no session in between, and the frontier is not behind. -/
def ResumesKept (c : String) (s : System) (i : Nat) (now : Int) (m : List Event) (e : Event) : Prop :=
  ∀ session frontier row row', (s.processes i).call = .finalize c session frontier →
    s.db.lifecycle.get c = some row → row.currentSessionId = some session →
    StaysUnbound c (s.next (.step i now)) m → NoReset c (s.next (.step i now)) m →
    (((s.next (.step i now)).run m).next e).db.lifecycle.get c = some row' → row'.currentSessionId = some session →
      row.currentFrontierStoreId ≤ row'.currentFrontierStoreId

theorem frontierKept_of_careful {c : String} {s : System} {e : Event} (hwrite : Unfounded s)
    (hcareful : CarefulRun c s [e]) : FrontierKept c s e := by
  intro session row row' hrow hrow' hbound hbound'
  obtain hsame | ⟨i, now, rfl, hstep⟩ := next_row s e c
  · have hkeep : row' = row := Option.some.inj (hrow'.symm.trans (hsame.trans hrow))
    rw [hkeep]
  · rw [hrow, hrow'] at hstep
    apply hstep.frontier_le (fun session attempts seen hcall => hwrite i session attempts seen c hcall)
      (hcareful [] i now [] rfl row hrow) (by simp [hbound])
    rw [hbound, hbound']

theorem resumesKept_of_careful {c : String} {s : System} {i : Nat} {now : Int} {m : List Event} {e : Event}
    (hcareful : CarefulRun c s (.step i now :: (m ++ [e]))) : ResumesKept c s i now m e := by
  intro session frontier row row' hcall hrow hbound hunbound hreset hrow' hback
  obtain ⟨mid, hmid, hfree⟩ := hunbound [] m rfl
  rw [System.run_nil] at hmid
  have hrest : CarefulRun c (s.next (.step i now)) (m ++ [e]) := CarefulRun.append (a := [.step i now]) hcareful
  have hres : Resumable session row.currentFrontierStoreId mid := by
    obtain hsame | ⟨j, t, he, hstep⟩ := next_row s (.step i now) c
    · -- The finalize must have changed the row: it was bound before and is unbound after.
      have hkeep : mid = row := Option.some.inj (hmid.symm.trans (hsame.trans hrow))
      rw [hkeep, hbound] at hfree
      cases hfree
    · cases he
      rw [hrow, hmid, hcall] at hstep
      rw [hstep.of_finalize]
      exact resumable_finalized hbound (hcall ▸ hcareful [] i now (m ++ [e]) rfl row hrow)
  have hm : CarefulRun c (s.next (.step i now)) m := by
    intro x j t y hxy r hr
    exact hrest x j t (y ++ [e]) (by rw [hxy, List.append_assoc]; rfl) r hr
  obtain ⟨last, hlast, hres'⟩ := resumable_run hmid hres hm hunbound hreset
  obtain hsame | ⟨j, t, rfl, hstep⟩ := next_row ((s.next (.step i now)).run m) e c
  · have hkeep : row' = last := Option.some.inj (hrow'.symm.trans (hsame.trans hlast))
    rw [hkeep, hres'.unbound] at hback
    cases hback
  · rw [hlast, hrow'] at hstep
    exact hstep.resumes hres' (hrest m j t [] rfl last hlast) hback

/-- In a run of careful writers the frontier never falls behind: neither while one session stays bound, nor when a
session comes back directly after its own finalize. -/
theorem frontier_never_regresses {c : String} {s : System} {events : List Event}
    (hidle : ∀ i, (s.processes i).call.finished = true) (hcareful : CarefulRun c s events) :
    (∀ a e b, events = a ++ e :: b → FrontierKept c (s.run a) e) ∧
      ∀ a i now m e b, events = a ++ .step i now :: (m ++ e :: b) → ResumesKept c (s.run a) i now m e := by
  constructor
  · intro a e b hsplit
    have hwrite : Unfounded s := by
      intro i session attempts seen c' hcall
      have hfin := hidle i
      rw [hcall] at hfin
      cases hfin
    apply frontierKept_of_careful hwrite.run
    intro x i now y hxy row hrow
    have hall : CarefulRun c (s.run a) (e :: b) := CarefulRun.append (hsplit ▸ hcareful)
    exact hall x i now (y ++ b) (by rw [← List.cons_append, ← List.append_assoc, ← hxy]; rfl) row hrow
  · intro a i now m e b hsplit
    apply resumesKept_of_careful
    have hall : CarefulRun c (s.run a) (.step i now :: (m ++ e :: b)) := CarefulRun.append (hsplit ▸ hcareful)
    intro x j t y hxy row hrow
    have happ : (Event.step i now :: (m ++ e :: b)) = (Event.step i now :: (m ++ [e])) ++ b := by simp
    exact hall x j t (y ++ b) (by rw [happ, hxy, List.append_assoc]; rfl) row hrow

/-! ## A careful run, and two that are not -/

/-- One conversation with the given row, and every process idle. -/
def oneRow (row : Row) : System where
  db := ⟨⟨[("c", row)], List.nodup_singleton _⟩, .empty, 0, [], 0, []⟩
  processes := fun _ => ⟨.returned none, none⟩

def boundAt (session : String) (frontier : Int) : Row := { firstRow session 1 with currentFrontierStoreId := frontier }

theorem CarefulRun.cons {c : String} {s : System} {e : Event}
    (hhead : ∀ i now, e = .step i now → ∀ row, s.db.lifecycle.get c = some row → Careful (s.processes i).call now c row)
    (htail : CarefulRun c (s.next e) events) : CarefulRun c s (e :: events) := by
  intro a i now b hsplit row hrow
  cases a with
  | nil =>
    cases hsplit
    exact hhead i now rfl row hrow
  | cons e' a =>
    cases hsplit
    exact htail a i now b rfl row hrow

theorem careful_of_bind {now : Int} {c : String} {row : Row}
    (hrollover : ∀ old new finalized, call ≠ .rolloverWrite c old new finalized)
    (hfinalize : ∀ session frontier, call ≠ .finalize c session frontier) : Careful call now c row :=
  ⟨fun _ _ _ h => absurd h (hrollover _ _ _), fun _ _ h => absurd h (hfinalize _ _),
    fun _ _ h => absurd h (hfinalize _ _), fun _ _ h => absurd h (hfinalize _ _)⟩

/-- A session finalizes at its frontier and binds again. -/
def comeBack : List Event :=
  [.start 0 (.finalizeSession "c" "s" 40), .start 1 (.bindSession "s" "c"), .step 0 10, .step 1 11, .step 1 12]

theorem carefulRun_comeBack : CarefulRun "c" (oneRow (boundAt "s" 40)) comeBack := by
  apply CarefulRun.cons (fun _ _ h => by cases h)
  apply CarefulRun.cons (fun _ _ h => by cases h)
  apply CarefulRun.cons
  · intro i now he row hrow
    cases he
    cases hrow
    constructor
    · intro old new finalized h
      cases h
    · intro session frontier h _
      cases h
      exact .inl le_rfl
    · intro session frontier _ h
      cases h
    · intro session frontier _ reset h
      cases h
  apply CarefulRun.cons
  · intro i now he row _
    cases he
    exact careful_of_bind (fun _ _ _ h => by cases h) (fun _ _ h => by cases h)
  apply CarefulRun.cons
  · intro i now he row _
    cases he
    exact careful_of_bind (fun _ _ _ h => by cases h) (fun _ _ h => by cases h)
  intro a i now b h
  cases a <;> cases h

theorem frontier_never_regresses_comeBack :
    ResumesKept "c" ((oneRow (boundAt "s" 40)).run (comeBack.take 2)) 0 10 [.step 1 11] (.step 1 12) :=
  (frontier_never_regresses (fun _ => rfl) carefulRun_comeBack).2 (comeBack.take 2) 0 10 [.step 1 11]
    (.step 1 12) [] rfl

/-- Two processes record the same rollover; the new session advances between their writes. -/
def rolloverTwice : List Event :=
  [.start 0 (.recordRollover "c" "a" "b" 0), .start 1 (.recordRollover "c" "a" "b" 0),
    .start 2 (.advanceFrontier "c" "b" 50),
    .step 0 10, .step 1 11, .step 0 12, .step 2 13, .step 2 14, .step 1 15]

/-- A session finalizes with the frontier it last knew, after another process has advanced it. -/
def finalizeBehind : List Event :=
  [.start 0 (.finalizeSession "c" "s" 40), .start 1 (.advanceFrontier "c" "s" 100), .start 2 (.bindSession "s" "c"),
    .step 1 10, .step 1 11, .step 0 12, .step 2 13, .step 2 14]

/-- A stale write puts the frontier back: from 50 to 0, and from 100 to 40 for a resume. -/
theorem frontier_regresses :
    ¬ FrontierKept "c" ((oneRow (boundAt "a" 0)).run (rolloverTwice.take 8)) (.step 1 15) ∧
      ¬ ResumesKept "c" ((oneRow (boundAt "s" 40)).run (finalizeBehind.take 5)) 0 12 [.step 2 13] (.step 2 14) := by
  constructor
  · intro h
    exact absurd (h "b" _ _ rfl rfl rfl rfl) (by decide +kernel)
  · intro h
    have hunbound : StaysUnbound "c"
        (((oneRow (boundAt "s" 40)).run (finalizeBehind.take 5)).next (.step 0 12)) [.step 2 13] := by
      intro x y hxy
      cases x with
      | nil => exact ⟨_, rfl, rfl⟩
      | cons e x =>
        cases x with
        | nil =>
          cases hxy
          exact ⟨_, rfl, rfl⟩
        | cons e' x => cases hxy
    have hreset : NoReset "c" (((oneRow (boundAt "s" 40)).run (finalizeBehind.take 5)).next (.step 0 12))
        [.step 2 13] := by
      intro x i now y hxy
      cases x with
      | nil =>
        cases hxy
        exact fun hc => by cases hc
      | cons e x => cases x <;> cases hxy
    exact absurd (h "s" 40 _ _ rfl rfl rfl hunbound hreset rfl rfl) (by decide +kernel)

end Lifecycle
