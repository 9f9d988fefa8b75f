import LcmX.SummaryRoutes

/-!
# Levels of a summary

Whatever the summariser, the clock, the breaker, the guard and the budget do, a summary
is shorter than its source, or it is the deterministic one, or the time is spent.
-/
namespace Escalation

open PyText Stateful

/-! ## What a run is given -/

/-- Whether there is a breaker and a budget does not change. -/
structure IsGiven (hasBreaker hasBudget : Bool) (run : Run) : Prop where
  breaker : run.breaker.isSome = hasBreaker
  budget : run.budget.isSome = hasBudget

/-- The failure that says that the time is spent. -/
def IsStop (raised : Raised) : Prop := ∃ message reason, raised = .sweepBudgetExhausted message reason

/-- From a given run to one, without a failure but that the time of the budget or of the deadline is spent. -/
abbrev Gives {α : Type} (hasBreaker hasBudget hasDeadline : Bool) (m : Summarise α) (P : α → Prop) : Prop :=
  Ensures (IsGiven hasBreaker hasBudget) m P fun raised => (hasBudget = true ∨ hasDeadline = true) ∧ IsStop raised

variable {hasBreaker hasBudget hasDeadline : Bool}

theorem IsGiven.withBreaker {run : Run} (h : IsGiven hasBreaker hasBudget run)
    (f : SummaryCircuitBreaker → SummaryCircuitBreaker) :
    IsGiven hasBreaker hasBudget (run.withBreaker f) := ⟨by simpa [Run.withBreaker] using h.breaker, h.budget⟩

theorem IsGiven.withBudget {run : Run} (h : IsGiven hasBreaker hasBudget run)
    (f : ForegroundBudget → ForegroundBudget) :
    IsGiven hasBreaker hasBudget (run.withBudget f) := ⟨h.breaker, by simpa [Run.withBudget] using h.budget⟩

theorem IsGiven.withProvenance {run : Run} (h : IsGiven hasBreaker hasBudget run) (f : Provenance → Provenance) :
    IsGiven hasBreaker hasBudget (run.withProvenance f) := ⟨h.breaker, h.budget⟩

theorem theBreaker_gives (h : hasBreaker = true) : Gives hasBreaker hasBudget hasDeadline theBreaker fun _ => True := by
  refine Ensures.get.bind fun run hrun => ?_
  obtain ⟨b, hb⟩ := Option.isSome_iff_exists.mp (hrun.breaker.trans h)
  rw [hb]
  exact .pure trivial

theorem theBudget_gives (h : hasBudget = true) : Gives hasBreaker hasBudget hasDeadline theBudget fun _ => True := by
  refine Ensures.get.bind fun run hrun => ?_
  obtain ⟨b, hb⟩ := Option.isSome_iff_exists.mp (hrun.budget.trans h)
  rw [hb]
  exact .pure trivial

section

variable (host : Host)

theorem readClock_gives : Gives hasBreaker hasBudget hasDeadline (readClock host) fun _ => True :=
  Ensures.get.bind fun _ _ => (Ensures.modify fun _ hrun => ⟨hrun.breaker, hrun.budget⟩).bind fun _ _ => .pure trivial

theorem readClockWhen_gives (needed : Bool) : Gives hasBreaker hasBudget hasDeadline
    (readClockWhen host needed) fun now => now.isSome = needed := by
  cases needed with
  | true => exact (readClock_gives host).bind fun now _ => .pure rfl
  | false => exact .pure rfl

theorem stop_gives {α : Type} {P : α → Prop} (h : hasBudget = true) (message reason : String) :
    Gives hasBreaker hasBudget hasDeadline (stop message reason) P :=
  (theBudget_gives h).bind fun _ _ => (Ensures.modify fun _ hrun => hrun.withBudget _).bind
    fun _ _ => .throw ⟨.inl h, message, reason, rfl⟩

/-- A breaker refuses a route only where there is one. -/
theorem refused_gives (routeKey : Text) : Gives hasBreaker hasBudget hasDeadline
    (refused host routeKey) fun r => r = true → hasBreaker = true := by
  refine Ensures.get.bind fun run hrun => ?_
  cases hb : run.breaker with
  | none => exact .pure fun h => by cases h
  | some b =>
    have hpresent : hasBreaker = true := by rw [← hrun.breaker, hb]; rfl
    refine (readClock_gives host).bind fun now _ =>
      (Ensures.modify fun run hrun => ⟨?_, hrun.budget⟩).bind fun _ _ => .pure fun _ => hpresent
    rw [hpresent]
    rfl

theorem admission_gives (h : hasBudget = true) (routeKey : Text) :
    Gives hasBreaker hasBudget hasDeadline (admission host routeKey) fun _ => True := by
  refine (readClock_gives host).bind fun now _ => (theBudget_gives h).bind fun b _ => ?_
  simp only
  split
  · split
    · exact stop_gives h _ _
    · exact .pure trivial
  · split
    · exact stop_gives h _ _
    · split
      · exact stop_gives h _ _
      · exact .pure trivial

/-- A call that the budget bounds has a timeout. -/
theorem callTimeout_gives (timeout deadline : Option ℚ) (routeKey : Text) (h : deadline.isSome = hasDeadline) :
    Gives hasBreaker hasBudget hasDeadline (callTimeout host timeout deadline routeKey)
      fun call => call.2 = true → call.1.isSome = true := by
  refine Ensures.get.bind fun run hrun => ?_
  cases hb : run.budget with
  | some b =>
    have hpresent : hasBudget = true := by rw [← hrun.budget, hb]; rfl
    refine (admission_gives host hpresent routeKey).bind fun usableLeft _ => ?_
    split
    · exact .pure fun _ => rfl
    · exact .pure fun h => by cases h
  | none =>
    cases deadline with
    | none => exact .pure fun h => by cases h
    | some deadline =>
      refine (readClock_gives host).bind fun now _ => ?_
      simp only
      split
      · exact .throw ⟨.inr h.symm, _, _, rfl⟩
      · exact .pure fun h => by cases h

theorem takeSlot_gives : Gives hasBreaker hasBudget hasDeadline (takeSlot host) fun _ => True := by
  refine Ensures.get.bind fun run hrun => ?_
  cases hg : run.guard with
  | none => exact .pure trivial
  | some g =>
    simp only
    split
    · exact .pure trivial
    · split
      · exact (Ensures.modify fun run hrun => hrun.withBudget _).bind fun _ _ => .pure trivial
      · refine (readClock_gives host).bind fun now _ =>
          (Ensures.modify fun run hrun => ⟨hrun.breaker, hrun.budget⟩).bind fun _ _ => ?_
        split
        · exact (Ensures.modify fun run hrun => hrun.withBudget _).bind fun _ _ => .pure trivial
        · exact .pure trivial

/-- An attempt under a budget has its end on the clock. -/
theorem invokeSummaryAttempt_gives (prompt : Prompt) (maxTokens : Int) (model : Text)
    (timeout : Option ℚ) (reasoningEffort : Text) :
    Gives hasBreaker hasBudget hasDeadline (invokeSummaryAttempt host prompt maxTokens model timeout reasoningEffort)
      fun attempt => hasBudget = true → attempt.timing.ended.isSome = true := by
  refine Ensures.get.bind fun run hrun => (readClock_gives host).bind fun started _ =>
    (Ensures.modify fun run hrun => ⟨hrun.breaker, hrun.budget⟩).bind fun _ _ =>
      (readClockWhen_gives host _).bind fun ended hended => Ensures.pure fun h => ?_
  rw [hended, hrun.budget, h]

theorem noteReportedRoute_gives (noted : Bool) (routeKey : Text) (attempt : SummaryAttempt) :
    Gives hasBreaker hasBudget hasDeadline (noteReportedRoute noted routeKey attempt) fun _ => True := by
  refine Ensures.modify fun run hrun => ?_
  split
  · exact hrun
  · exact hrun.withBreaker _

variable {attempt : SummaryAttempt} {args : ChainArgs} {facts : SummaryOutcomeFacts}

theorem noteAttempt_gives (routeKey : Text) (h : hasBudget = true → attempt.timing.ended.isSome = true) :
    Gives hasBreaker hasBudget hasDeadline (noteAttempt routeKey attempt) fun _ => True := by
  refine (Ensures.modify fun run hrun => ⟨hrun.breaker, hrun.budget⟩).bind fun _ _ => Ensures.bind
    (P := fun _ => True) ?_ fun _ _ => ?_
  · refine Ensures.get.bind fun run hrun => ?_
    cases hb : run.budget with
    | none => exact .pure trivial
    | some b =>
      have hpresent : hasBudget = true := by rw [← hrun.budget, hb]; rfl
      obtain ⟨ended, hended⟩ := Option.isSome_iff_exists.mp (h hpresent)
      rw [hended]
      exact Ensures.modify fun run hrun => hrun.withBudget _
  · exact noteReportedRoute_gives _ routeKey attempt

/-! ## The outcome of a call -/

/-- What the facts of an attempt say. -/
structure IsFacts (hasBreaker hasBudget : Bool) (args : ChainArgs) (attempt : SummaryAttempt) (call : Option ℚ × Bool)
    (facts : SummaryOutcomeFacts) : Prop where
  budgetPresent : facts.budgetPresent = hasBudget
  breakerPresent : facts.breakerPresent = hasBreaker
  budgetBound : facts.budgetBound = call.2
  callTimeout : facts.callTimeout = call.1
  acceptsResult : facts.acceptsResult = isAccepted args.acceptsResult attempt.text
  verbatimSmallSource : facts.verbatimSmallSource = args.verbatimSmallSource
  sourceTokens : facts.sourceTokens = args.sourceTokens
  resultTokens : ∀ result, attempt.text = some result → result ≠ [] → facts.acceptsResult = false →
    args.verbatimSmallSource = true →
    args.sourceTokens.isSome = true → facts.resultTokens = countTokensWith host.encoder result

theorem outcomeFacts_gives (args : ChainArgs) (attempt : SummaryAttempt) (call : Option ℚ × Bool) :
    Gives hasBreaker hasBudget hasDeadline (outcomeFacts host args attempt call)
    (IsFacts host hasBreaker hasBudget args attempt call) := by
  refine Ensures.get.bind fun run hrun => (readClockWhen_gives host _).bind fun now _ =>
    Ensures.pure ⟨hrun.budget, hrun.breaker, rfl, rfl, rfl, rfl, rfl, ?_⟩
  intro result htext hne hnot hverbatim hsource
  have hnot : isAccepted args.acceptsResult (some result) = false := htext ▸ hnot
  simp [htext, hne, hverbatim, hsource, hnot]

/-- A text that a chain may return: accepted, or not shorter than a source that may be stored whole. -/
def IsUsable (args : ChainArgs) (result : Text) : Prop :=
  result ≠ [] ∧ (isAccepted args.acceptsResult (some result) = true ∨
    args.verbatimSmallSource = true ∧ ∃ n ∈ args.sourceTokens, n ≤ (countTokensWith host.encoder result : Int))

/-- What an outcome says. -/
structure IsOutcome (hasBreaker hasBudget : Bool) (args : ChainArgs) (attempt : SummaryAttempt)
    (outcome : SummaryOutcome) : Prop where
  cut : outcome.kind = .budgetCut → hasBudget = true
  hang : outcome.recordHang = true → hasBreaker = true ∧ hasBudget = true
  usable : outcome.kind = .accepted ∨ outcome.kind = .verbatimSmallSource →
    ∀ result, attempt.text = some result → IsUsable host args result

variable {host}

theorem isOutcome_other {outcome : SummaryOutcome}
    (hkind : outcome.kind ∉ [.budgetCut, .accepted, .verbatimSmallSource]) (hhang : outcome.recordHang = false) :
    IsOutcome host hasBreaker hasBudget args attempt outcome := by
  simp only [List.mem_cons, List.not_mem_nil, or_false, not_or] at hkind
  refine ⟨fun h => absurd h hkind.1, fun h => ?_, fun h => absurd h (not_or.mpr hkind.2)⟩
  rw [hhang] at h
  cases h

/-- The class of a reply is an outcome of the attempt. -/
theorem isOutcome_classifyReply {call : Option ℚ × Bool}
    (h : IsFacts host hasBreaker hasBudget args attempt call facts) :
    IsOutcome host hasBreaker hasBudget args attempt (classifyReply host.isWord attempt facts) := by
  rw [classifyReply]
  split
  · next haccepted =>
    refine ⟨nofun, nofun, fun _ result htext => ?_⟩
    rw [h.acceptsResult, htext, Bool.and_eq_true] at haccepted
    exact ⟨of_decide_eq_true haccepted.1, .inl haccepted.2⟩
  · next hnot =>
    split
    · next hverbatim =>
      refine ⟨nofun, nofun, fun _ result htext => ?_⟩
      simp only [htext, Option.any_some, Bool.and_eq_true, decide_eq_true_eq] at hverbatim hnot
      obtain ⟨⟨hne, hwhole⟩, hcount⟩ := hverbatim
      have hrejected : facts.acceptsResult = false := by
        rw [← Bool.not_eq_true]
        exact fun haccepts => hnot ⟨hne, haccepts⟩
      rw [h.verbatimSmallSource] at hwhole
      rw [h.sourceTokens] at hcount
      obtain ⟨n, hn, hle⟩ := (Option.any_eq_true _ _).mp hcount
      rw [h.resultTokens result htext hne hrejected hwhole (by rw [hn]; rfl)] at hle
      exact ⟨hne, .inr ⟨hwhole, n, hn, of_decide_eq_true hle⟩⟩
    · split
      · refine isOutcome_other ?_ rfl
        cases facts.breakerPresent <;> simp
      · split
        · exact isOutcome_other (by decide) rfl
        · split
          · exact isOutcome_other (by decide) rfl
          · split
            · exact isOutcome_other (by decide) rfl
            · exact isOutcome_other (by decide) rfl

theorem isHang_satisfies (h : facts.budgetBound = true → facts.callTimeout.isSome = true) (ended wall : ℚ)
    (deadlineInstalled : Bool) : Satisfies (fun _ => True) E (isHang ended wall deadlineInstalled facts) := by
  rw [isHang]
  cases hbound : facts.budgetBound with
  | false => exact trivial
  | true =>
    obtain ⟨t, ht⟩ := Option.isSome_iff_exists.mp (h hbound)
    rw [ht]
    exact trivial

/-- Classifying an attempt gives one of its outcomes. -/
theorem classifySummaryOutcome_satisfies {call : Option ℚ × Bool}
    (h : IsFacts host hasBreaker hasBudget args attempt call facts) (hcall : call.2 = true → call.1.isSome = true)
    (hended : hasBudget = true → attempt.timing.ended.isSome = true) :
    Satisfies (IsOutcome host hasBreaker hasBudget args attempt) E
    (classifySummaryOutcome host.isWord attempt facts) := by
  have hreply : Satisfies (IsOutcome host hasBreaker hasBudget args attempt) E
      (.ok (classifyReply host.isWord attempt facts) : Except Raised SummaryOutcome) := isOutcome_classifyReply h
  rw [classifySummaryOutcome]
  split
  · next hbudget =>
    rw [Bool.and_eq_true, h.budgetPresent] at hbudget
    obtain ⟨ended, hsome⟩ := Option.isSome_iff_exists.mp (hended hbudget.1)
    rw [hsome]
    simp only
    split
    · have hfacts : facts.budgetBound = true → facts.callTimeout.isSome = true := by
        rw [h.budgetBound, h.callTimeout]
        exact hcall
      have hhang := isHang_satisfies (E := E) hfacts ended
        (ended - attempt.timing.started) attempt.timing.deadlineInstalled
      cases hresult : isHang ended (ended - attempt.timing.started) attempt.timing.deadlineInstalled facts with
      | error e =>
        rw [hresult] at hhang
        exact hhang
      | ok hang =>
        refine ⟨fun _ => hbudget.1, fun hrecord => ⟨?_, hbudget.1⟩, fun hkind => absurd hkind (by simp)⟩
        have hboth : (facts.breakerPresent && hang) = true := hrecord
        rw [Bool.and_eq_true, h.breakerPresent] at hboth
        exact hboth.1
    · exact hreply
  · exact hreply

/-! ## The routes -/

variable (host)

theorem openHungRoute_gives (hbreaker : hasBreaker = true) (hbudget : hasBudget = true) (routeKey : Text) :
    Gives hasBreaker hasBudget hasDeadline (openHungRoute host routeKey) fun _ => True := by
  refine (theBreaker_gives hbreaker).bind fun b _ => (readClock_gives host).bind fun now _ =>
    (Ensures.modify fun run hrun => ⟨hbreaker.symm, hrun.budget⟩).bind
      fun _ _ => (refused_gives host routeKey).bind fun open_ _ => ?_
  split
  · exact (theBudget_gives hbudget).bind fun _ _ => Ensures.modify fun run hrun => hrun.withBudget _
  · exact .pure trivial

theorem cutByBudget_gives {P : Option Text → Prop} {outcome : SummaryOutcome}
    (hhang : outcome.recordHang = true → hasBreaker = true)
    (hbudget : hasBudget = true) (routeKey : Text) :
      Gives hasBreaker hasBudget hasDeadline (cutByBudget host routeKey outcome) P := by
  have hrecord : Gives hasBreaker hasBudget hasDeadline
      (recordHangWhen host outcome.recordHang routeKey) fun _ => True := by
    rw [recordHangWhen]
    split
    · next h => exact openHungRoute_gives host (hhang h) hbudget routeKey
    · exact .pure trivial
  exact hrecord.bind fun _ _ => stop_gives hbudget _ _

theorem recordAndOpen_gives (routeKey : Text) (record : SummaryCircuitBreaker → SummaryCircuitBreaker)
    (tooMany : SummaryCircuitBreaker → Bool) :
    Gives hasBreaker hasBudget hasDeadline (recordAndOpen host routeKey record tooMany) fun _ => True := by
  refine Ensures.get.bind fun run hrun => ?_
  cases hb : run.breaker with
  | none => exact .pure trivial
  | some b =>
    have hpresent : hasBreaker = true := by rw [← hrun.breaker, hb]; rfl
    refine (Ensures.modify fun run hrun => ⟨hpresent.symm, hrun.budget⟩).bind fun _ _ => ?_
    split
    · exact (readClock_gives host).bind fun now _ => Ensures.modify fun run hrun => ⟨hpresent.symm, hrun.budget⟩
    · exact .pure trivial

theorem recordUnusable_gives (routeKey : Text) (attempt : SummaryAttempt) (kind : SummaryOutcomeKind) :
    Gives hasBreaker hasBudget hasDeadline (recordUnusable host routeKey attempt kind) fun _ => True := by
  cases kind with
  | configError =>
    refine Ensures.get.bind fun run hrun => ?_
    cases hb : run.breaker with
    | none => exact .pure trivial
    | some b =>
      have hpresent : hasBreaker = true := by rw [← hrun.breaker, hb]; rfl
      exact (readClock_gives host).bind fun now _ => Ensures.modify fun run hrun => ⟨hpresent.symm, hrun.budget⟩
  | contentFilter => exact Ensures.modify fun run hrun => hrun.withProvenance _
  | contextLength =>
    exact (Ensures.modify fun run hrun => ⟨hrun.breaker, hrun.budget⟩).bind fun _ _ =>
      Ensures.modify fun run hrun => hrun.withProvenance _
  | failure => exact recordAndOpen_gives host routeKey _ _
  | rejection => exact recordAndOpen_gives host routeKey _ _
  | budgetCut => exact .pure trivial
  | accepted => exact .pure trivial
  | verbatimSmallSource => exact .pure trivial
  | rejected => exact .pure trivial

theorem settle_gives {outcome : SummaryOutcome} (h : IsOutcome host hasBreaker hasBudget args attempt outcome)
    (candidate routeKey : Text) :
    Gives hasBreaker hasBudget hasDeadline (settle host candidate routeKey attempt outcome)
      fun r => ∀ result ∈ r, IsUsable host args result := by
  rw [settle]
  split
  · next hcut => exact cutByBudget_gives host (fun hhang => (h.hang hhang).1) (h.cut hcut) routeKey
  · refine (noteReportedRoute_gives _ routeKey attempt).bind fun _ _ => ?_
    cases hkind : outcome.kind with
    | accepted =>
      exact (Ensures.modify fun run hrun => hrun.withBreaker _).bind fun _ _ =>
        (Ensures.modify fun run hrun => hrun.withProvenance _).bind fun _ _ => .pure (h.usable (.inl hkind))
    | verbatimSmallSource =>
      exact (Ensures.modify fun run hrun => hrun.withProvenance _).bind fun _ _ => .pure (h.usable (.inr hkind))
    | _ => exact (recordUnusable_gives host routeKey attempt _).bind fun _ _ => .pure (by simp)

theorem endRoutes_gives {chain : List Text} {skipped : Nat} (hchain : chain ≠ [])
    (hskipped : 0 < skipped → hasBreaker = true) :
    Gives hasBreaker hasBudget hasDeadline (endRoutes chain skipped) fun r => ∀ result ∈ r,
      IsUsable host args result := by
  rw [endRoutes]
  split
  · next hall =>
    have hpos := List.length_pos_iff.mpr hchain
    exact (theBreaker_gives (hskipped (by omega))).bind fun _ _ => .pure (by simp)
  · exact .pure (by simp)

/-- What the routes return may be returned, by induction on the routes that are left. -/
theorem tryRoutes_gives (args : ChainArgs) (hdeadline : args.deadline.isSome = hasDeadline)
    {chain : List Text} (hchain : chain ≠ []) (left : List Text) : ∀ {skipped : Nat},
    (0 < skipped → hasBreaker = true) →
    Gives hasBreaker hasBudget hasDeadline (tryRoutes host args chain left skipped)
      fun r => ∀ result ∈ r, IsUsable host args result := by
  induction left with
  | nil => exact fun hskipped => endRoutes_gives host hchain hskipped
  | cons candidate left ih =>
    intro skipped hskipped
    rw [tryRoutes]
    refine (refused_gives host _).bind fun isOpen hopen => ?_
    split
    · next h => exact ih fun _ => hopen h
    · refine (callTimeout_gives host _ _ _ hdeadline).bind
        fun call hcall => (takeSlot_gives host).bind fun allowed _ => ?_
      split
      · refine (invokeSummaryAttempt_gives host _ _ _ _ _).bind fun attempt hended =>
          (noteAttempt_gives _ hended).bind fun _ _ =>
          (outcomeFacts_gives host args attempt call).bind fun facts hfacts =>
            (Ensures.ofExcept (classifySummaryOutcome_satisfies hfacts hcall hended)).bind fun outcome houtcome =>
              (settle_gives host houtcome candidate _).bind fun r hr => ?_
        cases r with
        | some result => exact .pure hr
        | none => exact ih hskipped
      · exact endRoutes_gives host hchain hskipped

theorem summaryModelChain_ne_nil (primaryModel : Text) (fallbackModels : List Text) :
    summaryModelChain primaryModel fallbackModels ≠ [] := by
  have hkeep : ∀ (models chain : List Text), chain ≠ [] →
      models.foldl (fun chain model => if strip model ∈ chain then chain else chain ++ [strip model]) chain ≠ [] := by
    intro models
    induction models with
    | nil => exact fun _ h => h
    | cons model models ih =>
      intro chain h
      rw [List.foldl_cons]
      apply ih
      split
      · exact h
      · simp
  rw [summaryModelChain, List.foldl_cons]
  exact hkeep _ _ (by simp)

theorem IsGiven.noteSummaryFailure {run : Run} (h : IsGiven hasBreaker hasBudget run) :
    IsGiven hasBreaker hasBudget (noteSummaryFailure run) := by
  rw [Escalation.noteSummaryFailure]
  split
  · exact h.withBudget _
  · exact h

theorem invokeSummaryLlmChain_gives (args : ChainArgs) (hdeadline : args.deadline.isSome = hasDeadline) :
    Gives hasBreaker hasBudget hasDeadline (invokeSummaryLlmChain host args) fun r => ∀ result ∈ r,
      IsUsable host args result := by
  have hroutes : Gives hasBreaker hasBudget hasDeadline
      (invokeSummaryLlmRoutes host args) fun r => ∀ result ∈ r, IsUsable host args result :=
    tryRoutes_gives host args hdeadline (summaryModelChain_ne_nil _ _) _ fun h => absurd h (Nat.lt_irrefl 0)
  refine (Ensures.modify fun run hrun => ⟨hrun.breaker, hrun.budget⟩).bind fun _ _ =>
    (hroutes.onFailure fun run hrun => hrun.noteSummaryFailure).bind fun r hr =>
      (Ensures.modify fun run hrun => ?_).bind fun _ _ => .pure hr
  split
  · exact hrun
  · exact hrun.noteSummaryFailure

/-! ## The levels -/

/-- A summary and its level: shorter than the source on the first two levels, and the whole source
or its truncation on the last. -/
structure IsConverged (args : EscalationArgs) (result : Text × Nat) : Prop where
  level : result.2 = 1 ∨ result.2 = 2 ∨ result.2 = 3
  shorter : result.2 = 1 ∨ result.2 = 2 →
    result.1 ≠ [] ∧ (countTokensWith host.encoder result.1 : Int) < args.sourceTokens
  last : result.2 = 3 →
    args.verbatimSmallSource = true ∧ result.1 = args.text ∧
      (countTokensWith host.encoder args.text : Int) ≤ 2 * args.l3TruncateTokens ∨
      result.1 = deterministicTruncateWith host.encoder args.text args.l3TruncateTokens

theorem isConverged_whole {args : EscalationArgs} (hverbatim : args.verbatimSmallSource = true)
    (hcount : (countTokensWith host.encoder args.text : Int) ≤ 2 * args.l3TruncateTokens) :
      IsConverged host args (args.text, 3) :=
  ⟨.inr (.inr rfl), by simp, fun _ => .inl ⟨hverbatim, rfl, hcount⟩⟩

theorem levelResult_converged {args : EscalationArgs} {prompt : Prompt} {tokenBudget : Int}
    {level : Nat} (hlevel : level = 1 ∨ level = 2)
    {r : Option Text} (hr : ∀ result ∈ r, IsUsable host (args.chainArgs host prompt tokenBudget) result) :
    ∀ result ∈ levelResult host args level r, IsConverged host args result := by
  rintro result hresult
  match r with
  | none => cases hresult
  | some [] => cases hresult
  | some (c :: rest) =>
    obtain ⟨hne, husable⟩ := hr _ rfl
    rw [levelResult.eq_3 _ _ _ _ (by simp)] at hresult
    split at hresult
    · next hwhole =>
      cases hresult
      simp only [EscalationArgs.wholeIfNotShorter, Bool.and_eq_true, decide_eq_true_eq] at hwhole
      exact isConverged_whole host hwhole.1.1 hwhole.1.2
    · next hnot =>
      cases hresult
      refine ⟨by omega, fun _ => ⟨hne, ?_⟩, fun h => absurd h (by simp only; omega)⟩
      obtain haccepted | ⟨hwhole, n, hn, hle⟩ := husable
      · simpa [isAccepted, EscalationArgs.chainArgs, EscalationArgs.acceptsResult] using haccepted
      · obtain rfl := Option.some.inj hn
        exact absurd (Bool.and_eq_true_iff.mpr ⟨hwhole, decide_eq_true hle⟩) hnot

theorem checkTime_gives (deadline : Option ℚ) (h : deadline.isSome = hasDeadline) :
    Gives hasBreaker hasBudget hasDeadline (checkTime host deadline) fun _ => True := by
  refine Ensures.get.bind fun run hrun => ?_
  split
  · exact .pure trivial
  · next deadline' hsome =>
    refine (readClock_gives host).bind fun now _ => ?_
    split
    · exact .pure trivial
    · split
      · next hbudget => exact stop_gives (hrun.budget ▸ hbudget) _ _
      · next hbudget =>
        rw [if_neg hbudget] at hsome
        exact .throw ⟨.inr (by rw [← h, hsome]; rfl), _, _, rfl⟩

theorem summarizeWithEscalation_gives (args : EscalationArgs) :
    Gives hasBreaker hasBudget args.deadline.isSome (summarizeWithEscalation host args) (IsConverged host args) := by
  rw [summarizeWithEscalation]
  split
  · next hsmall =>
    rw [Bool.and_eq_true, EscalationArgs.verbatimSource, decide_eq_true_eq] at hsmall
    refine (Ensures.modify fun run hrun => hrun.withProvenance _).bind fun _ _ => .pure
      (isConverged_whole host hsmall.1 ?_)
    have hnonneg := Int.natCast_nonneg (countTokensWith host.encoder args.text)
    omega
  · refine (invokeSummaryLlmChain_gives host _ rfl).bind fun r hr => ?_
    split
    · next result hresult => exact .pure (levelResult_converged host (.inl rfl) hr result hresult)
    · refine (invokeSummaryLlmChain_gives host _ rfl).bind fun r hr => ?_
      split
      · next result hresult => exact .pure (levelResult_converged host (.inr rfl) hr result hresult)
      · exact (checkTime_gives host _ rfl).bind
          fun _ _ => (Ensures.modify fun run hrun => hrun.withProvenance _).bind fun _ _ =>
          .pure ⟨.inr (.inr rfl), by simp, fun _ => .inr rfl⟩

/-- Whatever the model, the clock, the breaker, the guard and the budget do, an escalation ends with
a summary that makes progress, or because the time is spent. -/
theorem escalation_converges (args : EscalationArgs) (run : Run) :
    Satisfies (IsConverged host args) IsStop (outcome (summarizeWithEscalation host args) run).1 := by
  have hgives := (summarizeWithEscalation_gives host args run ⟨rfl, rfl⟩).2
  cases hresult : (outcome (summarizeWithEscalation host args) run).1 with
  | ok result =>
    rw [hresult] at hgives
    exact hgives
  | error raised =>
    rw [hresult] at hgives
    exact hgives.2

/-- Without a budget and a deadline there is no time to spend, and an escalation returns. -/
theorem escalation_returns (args : EscalationArgs) (run : Run) (hbudget : run.budget = none)
    (hdeadline : args.deadline = none) :
    ∃ result, (outcome (summarizeWithEscalation host args) run).1 = .ok result ∧ IsConverged host args result := by
  have hgives := (summarizeWithEscalation_gives host args run ⟨rfl, rfl⟩).2
  cases hresult : (outcome (summarizeWithEscalation host args) run).1 with
  | ok result =>
    rw [hresult] at hgives
    exact ⟨result, rfl, hgives⟩
  | error raised =>
    rw [hresult] at hgives
    obtain htimed := hgives.1
    rw [hbudget, hdeadline] at htimed
    simp at htimed

end

def teaHost (reply : Option Text) : Host := ⟨fun n => n, fun _ _ => ⟨reply, none, [], []⟩, false, none, Char.isAlphanum⟩

def teaArgs : EscalationArgs := { text := "tea at noon and milk at four".toList, sourceTokens := 7, tokenBudget := 8 }

def bareRun : Run := { breaker := none, guard := none, budget := none, provenance := none }

-- a short reply, no reply, and no reply after a deadline
example : ((outcome (summarizeWithEscalation (teaHost (some "tea".toList)) teaArgs) bareRun).1.toOption,
    (outcome (summarizeWithEscalation (teaHost none) teaArgs) bareRun).1.toOption,
    (outcome (summarizeWithEscalation (teaHost none) { teaArgs with deadline := some 0 }) bareRun).1.toOption) =
      (some ("tea".toList, 1), some (teaArgs.text, 3), none) := by decide +kernel

end Escalation
