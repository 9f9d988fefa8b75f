import LcmX.SummaryOutcome
import LcmX.Truncation
import LcmX.Lib.Stateful

/-!
# Routes of a summary

The models of a chain are tried in order. A circuit breaker skips the routes that have
failed, a guard limits the calls, and a foreground budget or a deadline bounds the time.
-/
namespace Escalation

open PyText Stateful

attribute [local instance] PyText.lawfulBEq_text

/-! ## The circuit breaker -/

structure RouteState where
  provider : Option Text := none
  model : Option Text := none
  lastErrorClass : Option String := none

structure SummaryCircuitBreaker where
  failureThreshold : Int := 2
  cooldownSeconds : Int := 300
  rejectionThreshold : Int := 6
  failures : Text → Option Nat := fun _ => none
  rejections : Text → Option Nat := fun _ => none
  openUntil : Text → Option ℚ := fun _ => none
  routeState : Text → Option RouteState := fun _ => none
  configEpisodes : List Text := []

def defaultRouteKey : Text := "<task-default>".toList

def breakerKey (model : Text) : Text := if strip model = [] then defaultRouteKey else strip model

namespace SummaryCircuitBreaker

variable (b : SummaryCircuitBreaker) (model : Text) (now : ℚ)

def allows : Bool × SummaryCircuitBreaker :=
  let key := breakerKey model
  if (b.openUntil key).getD 0 ≤ now then
    (true, { b with openUntil := Function.update b.openUntil key none }) else (false, b)

/-- `_note` -/
def note (errorClass : Option String) (route : Route) : SummaryCircuitBreaker :=
  let key := breakerKey model
  let state := { (b.routeState key).getD {} with lastErrorClass := errorClass }
  { b with routeState := Function.update b.routeState key (some (if route = [] then state
      else { state with provider := route.lookup "provider", model := route.lookup "model" })) }

def noteRoute (route : Route) : SummaryCircuitBreaker :=
  b.note model ((b.routeState (breakerKey model)).bind RouteState.lastErrorClass) route

def cooldown : ℚ := max 0 b.cooldownSeconds

/-- The route is open from now on for the cooldown. -/
def opened : SummaryCircuitBreaker :=
  { b with openUntil := Function.update b.openUntil (breakerKey model) (some (now + b.cooldown)) }

def recordSuccess : SummaryCircuitBreaker :=
  let key := breakerKey model
  { b with
    failures := Function.update b.failures key none
    rejections := Function.update b.rejections key none
    openUntil := Function.update b.openUntil key none
    configEpisodes := b.configEpisodes.filter (· ≠ key) }.note model none []

def recordHang : SummaryCircuitBreaker := (b.opened model now).note model (some "hung") []

def recordConfigError (route : Route) : SummaryCircuitBreaker :=
  let key := breakerKey model
  let noted := (b.note model (some "config_error") route).opened model now
  { noted with configEpisodes := if key ∈ b.configEpisodes then b.configEpisodes else key :: b.configEpisodes }

/-- One more failure. -/
def failed : SummaryCircuitBreaker :=
  let key := breakerKey model
  { b.note model (some "provider_failure") [] with
    failures := Function.update b.failures key (some ((b.failures key).getD 0 + 1)) }

def tooManyFailures : Bool :=
  max 1 (if b.failureThreshold = 0 then 1 else b.failureThreshold) ≤ ((b.failures (breakerKey model)).getD 0 : Int)

/-- One more rejected result. -/
def rejected : SummaryCircuitBreaker :=
  let key := breakerKey model
  { b.note model (some "rejected") [] with
    rejections := Function.update b.rejections key (some ((b.rejections key).getD 0 + 1)) }

def tooManyRejections : Bool :=
  max 1 (if b.rejectionThreshold = 0 then 1 else b.rejectionThreshold) ≤
    ((b.rejections (breakerKey model)).getD 0 : Int)

end SummaryCircuitBreaker

/-! ## The spend guard -/

/-- Sums and differences of times are rounded as `round` says; for the floats of the source that is
`Rounding.binary64`. -/
structure SummarySpendGuard where
  maxCalls : Int := 24
  windowSeconds : ℚ := 600
  backoffSeconds : ℚ := 1800
  calls : List ℚ := []
  backoffUntil : ℚ := 0
  round : ℚ → ℚ := id

namespace SummarySpendGuard

variable (g : SummarySpendGuard) (now : ℚ)

def cutoff : ℚ := g.round (now - g.windowSeconds)

/-- `_prune` -/
def prune : SummarySpendGuard :=
  if g.calls.head?.any (· < g.cutoff now) then { g with calls := g.calls.filter (g.cutoff now ≤ ·) } else g

/-- `current_time + max(0.0, backoff_seconds)` -/
def deadline : ℚ := g.round (now + max 0 g.backoffSeconds)

/-- `_record_call_locked` -/
def recordCallLocked : SummarySpendGuard :=
  let calls := g.calls ++ [now]
  if g.maxCalls ≤ calls.length ∧ g.backoffUntil ≤ now then { g with calls := [], backoffUntil := g.deadline now }
  else { g with calls := calls }

def tryRecordCall : Bool × SummarySpendGuard :=
  if now < g.backoffUntil then (false, g)
  else if g.maxCalls ≤ (g.prune now).calls.length then (false, g.prune now)
  else (true, (g.prune now).recordCallLocked now)

end SummarySpendGuard

/-! ## The foreground budget -/

def thresholdFullSweepMinCallSeconds : ℚ := 15

def p90 (samples : List ℚ) (cold : ℚ) : ℚ :=
  if samples = [] then cold else (samples.mergeSort (· ≤ ·)).getD (⌈(9 / 10 : ℚ) * samples.length⌉.toNat - 1) cold

structure ForegroundBudget where
  t0 : ℚ
  soft : ℚ
  hard : ℚ
  configuredTimeout : ℚ
  calls : Text → List ℚ := fun _ => []
  reserve : ℚ
  leafReserve : ℚ := 0
  slotTaken : Bool := false
  progress : Text := []
  stopReason : String := ""
  hungRoute : Option Text := none
  firstCallStarted : Option ℚ := none
  lastCallEnded : Option ℚ := none
  summaryFailure : Text := []

namespace ForegroundBudget

variable (b : ForegroundBudget)

def usableDeadline : ℚ := b.t0 + b.hard - b.reserve - b.leafReserve

def estimate (routeKey : Text) : ℚ :=
  min (max (p90 (b.calls routeKey) 30) thresholdFullSweepMinCallSeconds) (min b.configuredTimeout (b.hard - b.reserve))

def recordCall (routeKey : Text) (started ended : ℚ) : ForegroundBudget :=
  let walls := b.calls routeKey ++ [ended - started]
  { b with
    calls := Function.update b.calls routeKey (walls.drop (walls.length - 8))
    firstCallStarted := some (b.firstCallStarted.getD started)
    lastCallEnded := some ended }

end ForegroundBudget

/-! ## The run -/

/-- A prompt is what it is built from. -/
inductive Prompt where
  | l1 (text : Text) (tokenBudget depth : Int) (focusTopic customInstructions : Text) (promptVersion : Int)
  | l2 (text : Text) (tokenBudget : Int) (focusTopic customInstructions : Text) (promptVersion : Int)

/-- One call of the summariser. -/
structure Request where
  prompt : Prompt
  maxTokens : Int
  model : Text
  timeout : Option ℚ
  reasoningEffort : Text
  streamDeadline : Option ℚ

structure Reply where
  text : Option Text
  error : Option ProviderError
  route : Route
  contract : Text

/-- What the code meets outside: the readings of the clock, the replies of the summariser, whether the host installs a
stream deadline, the encoder, and what `\w` matches. -/
structure Host where
  monotonic : Nat → ℚ
  callLlmForSummary : Nat → Request → Reply
  streamDeadlineSeam : Bool
  encoder : Option Encoder
  isWord : Char → Bool

structure Provenance where
  model : Option Text := none
  contentFilterError : Bool := false
  contextLengthError : Bool := false

/-- The objects that a call is given, and what it has read and noted so far. -/
structure Run where
  reads : Nat := 0
  calls : Nat := 0
  breaker : Option SummaryCircuitBreaker
  guard : Option SummarySpendGuard
  budget : Option ForegroundBudget
  provenance : Option Provenance
  chainError : Option Text := none
  contextLengthHandoff : Bool := false

abbrev Summarise (α : Type) : Type := Eff Run Raised α

def Run.withBreaker (run : Run) (f : SummaryCircuitBreaker → SummaryCircuitBreaker) : Run :=
  { run with breaker := run.breaker.map f }

def Run.withBudget (run : Run) (f : ForegroundBudget → ForegroundBudget) : Run :=
  { run with budget := run.budget.map f }

def Run.withProvenance (run : Run) (f : Provenance → Provenance) : Run :=
  { run with provenance := run.provenance.map f }

def theBreaker : Summarise SummaryCircuitBreaker := do
  match (← get).breaker with
  | some b => pure b
  | none => throw .noneError

def theBudget : Summarise ForegroundBudget := do
  match (← get).budget with
  | some b => pure b
  | none => throw .noneError

section

variable (host : Host)

def readClock : Summarise ℚ := do
  let run ← get
  modify fun run => { run with reads := run.reads + 1 }
  pure (host.monotonic run.reads)

/-- A reading of the clock that only some cases need. -/
def readClockWhen (needed : Bool) : Summarise (Option ℚ) := do
  if needed then
    let now ← readClock host
    pure (some now)
  else pure none

/-- Whether the breaker refuses a route. -/
def refused (routeKey : Text) : Summarise Bool := do
  match (← get).breaker with
  | none => pure false
  | some b =>
    let now ← readClock host
    modify fun run => { run with breaker := some (b.allows routeKey now).2 }
    pure (!(b.allows routeKey now).1)

/-- `raise budget.stop(..)` -/
def stop {α : Type} (message reason : String) : Summarise α := do
  let _ ← theBudget
  modify fun run => run.withBudget fun b => { b with stopReason := reason }
  throw (.sweepBudgetExhausted message reason)

def timeBudgetExhausted : String := "threshold full sweep time budget exhausted"

def admission (routeKey : Text) : Summarise ℚ := do
  let now ← readClock host
  let b ← theBudget
  let usableLeft := b.usableDeadline - now
  if b.progress = [] then
    if usableLeft < thresholdFullSweepMinCallSeconds then
      stop timeBudgetExhausted "time_budget_exhausted" else pure usableLeft
  else if usableLeft < b.estimate routeKey then stop timeBudgetExhausted "time_budget_exhausted"
  else if 0 < b.soft ∧ b.t0 + b.soft < now + b.estimate routeKey then
    stop "foreground soft target reached" "soft_target_reached"
  else pure usableLeft

/-- The timeout of a call, and whether the budget bounds it. -/
def callTimeout (timeout deadline : Option ℚ) (routeKey : Text) : Summarise (Option ℚ × Bool) := do
  match (← get).budget with
  | some _ =>
    let usableLeft ← admission host routeKey
    if timeout.all (usableLeft < ·) then pure (some usableLeft, true) else pure (timeout, false)
  | none =>
    match deadline with
    | some deadline =>
      let now ← readClock host
      let remaining := deadline - now
      if remaining < thresholdFullSweepMinCallSeconds then
        throw (.sweepBudgetExhausted timeBudgetExhausted "time_budget_exhausted")
      else pure (some (timeout.elim remaining (min · remaining)), false)
    | none => pure (timeout, false)

/-- Whether the guard lets a call through. -/
def takeSlot : Summarise Bool := do
  let run ← get
  match run.guard with
  | none => pure true
  | some g =>
    if run.budget.any ForegroundBudget.slotTaken then pure true
    else if g.maxCalls ≤ 0 then
      modify fun run => run.withBudget fun b => { b with slotTaken := true }
      pure true
    else
      let now ← readClock host
      modify fun run => { run with guard := some (g.tryRecordCall now).2 }
      if (g.tryRecordCall now).1 then
        modify fun run => run.withBudget fun b => { b with slotTaken := true }
        pure true
      else pure false

/-- `_invoke_summary_attempt` -/
def invokeSummaryAttempt (prompt : Prompt) (maxTokens : Int) (model : Text) (timeout : Option ℚ)
    (reasoningEffort : Text) :
    Summarise SummaryAttempt := do
  let run ← get
  let started ← readClock host
  modify fun run => { run with calls := run.calls + 1 }
  let reply := host.callLlmForSummary run.calls
    ⟨prompt, maxTokens, model, timeout, reasoningEffort, run.budget.map ForegroundBudget.usableDeadline⟩
  let ended ← readClockWhen host run.budget.isSome
  pure ⟨reply.text, reply.error, reply.route, reply.contract,
    ⟨started, ended, run.budget.isSome && host.streamDeadlineSeam⟩⟩

/-! ## A chain of routes -/

/-- What a chain is called with. -/
structure ChainArgs where
  prompt : Prompt
  maxTokens : Int
  model : Text
  fallbackModels : List Text
  timeout : Option ℚ
  reasoningEffort : Text
  acceptsResult : Option (Text → Bool)
  sourceTokens : Option Int
  deadline : Option ℚ
  routeKeyPrefix : Text
  verbatimSmallSource : Bool
  contextLengthRescue : Bool

/-- `_summary_model_chain` -/
def summaryModelChain (primaryModel : Text) (fallbackModels : List Text) : List Text :=
  (primaryModel :: fallbackModels).foldl
    (fun chain model => if strip model ∈ chain then chain else chain ++ [strip model]) []

def noteError (attempt : SummaryAttempt) : Summarise Unit :=
  modify fun run => { run with chainError := (attempt.error.map ProviderError.typeName).or run.chainError }

def noteCall (routeKey : Text) (attempt : SummaryAttempt) : Summarise Unit := do
  match (← get).budget with
  | none => pure ()
  | some _ =>
    match attempt.timing.ended with
    | some ended => modify fun run => run.withBudget fun b => b.recordCall routeKey attempt.timing.started ended
    | none => throw .noneError

def noteReportedRoute (noted : Bool) (routeKey : Text) (attempt : SummaryAttempt) : Summarise Unit :=
  modify fun run => if !noted ∨ attempt.route = [] then run
    else run.withBreaker fun b => b.noteRoute routeKey attempt.route

/-- What a finished call leaves in the budget and the breaker, before its outcome is known. -/
def noteAttempt (routeKey : Text) (attempt : SummaryAttempt) : Summarise Unit := do
  noteError attempt
  noteCall routeKey attempt
  noteReportedRoute attempt.text.isSome routeKey attempt

/-- A text that is not empty, and accepted. -/
def isAccepted (acceptsResult : Option (Text → Bool)) (text : Option Text) : Bool :=
  text.any fun result => result ≠ [] && acceptsResult.all fun accepts => accepts result

def outcomeFacts (args : ChainArgs) (attempt : SummaryAttempt) (call : Option ℚ × Bool) :
    Summarise SummaryOutcomeFacts := do
  let run ← get
  let now ← readClockWhen host (run.budget.isSome && attempt.text.isNone && attempt.error.isSome)
  let accepted := isAccepted args.acceptsResult attempt.text
  let counted := attempt.text.any (· ≠ []) && !accepted && args.verbatimSmallSource && args.sourceTokens.isSome
  pure {
    budgetPresent := run.budget.isSome
    budgetBound := call.2
    callTimeout := call.1
    configuredTimeout := run.budget.elim 0 ForegroundBudget.configuredTimeout
    hard := run.budget.elim 0 ForegroundBudget.hard
    reserve := run.budget.elim 0 ForegroundBudget.reserve
    leafReserve := run.budget.elim 0 ForegroundBudget.leafReserve
    usableDeadline := run.budget.elim 0 ForegroundBudget.usableDeadline
    now := now.getD 0
    breakerPresent := run.breaker.isSome
    acceptsResult := accepted
    verbatimSmallSource := args.verbatimSmallSource
    sourceTokens := args.sourceTokens
    resultTokens := if counted then countTokensWith host.encoder (attempt.text.getD []) else 0
    contextLengthRescue := args.contextLengthRescue }

/-- A route that used the whole window is opened. -/
def openHungRoute (routeKey : Text) : Summarise Unit := do
  let b ← theBreaker
  let now ← readClock host
  modify fun run => { run with breaker := some (b.recordHang routeKey now) }
  if ← refused host routeKey then
    let _ ← theBudget
    modify fun run => run.withBudget fun b => { b with hungRoute := some routeKey }
  else pure ()

def recordHangWhen (hung : Bool) (routeKey : Text) : Summarise Unit :=
  if hung then openHungRoute host routeKey else pure ()

/-- The budget cut a call, and the compaction stops. -/
def cutByBudget (routeKey : Text) (outcome : SummaryOutcome) : Summarise (Option Text) := do
  recordHangWhen host outcome.recordHang routeKey
  stop "summariser call cut by the foreground budget" "time_budget_exhausted"

/-- One more failure or rejected result, which may open the route. -/
def recordAndOpen (routeKey : Text) (record : SummaryCircuitBreaker → SummaryCircuitBreaker)
    (tooMany : SummaryCircuitBreaker → Bool) :
    Summarise Unit := do
  match (← get).breaker with
  | none => pure ()
  | some b =>
    modify fun run => { run with breaker := some (record b) }
    if tooMany (record b) then
      let now ← readClock host
      modify fun run => { run with breaker := some ((record b).opened routeKey now) }
    else pure ()

/-- A call without a usable result. -/
def recordUnusable (routeKey : Text) (attempt : SummaryAttempt) (kind : SummaryOutcomeKind) : Summarise Unit := do
  match kind with
  | .configError =>
    match (← get).breaker with
    | none => pure ()
    | some b =>
      let now ← readClock host
      modify fun run => { run with breaker := some (b.recordConfigError routeKey now attempt.route) }
  | .contentFilter => modify fun run => run.withProvenance fun p => { p with contentFilterError := true }
  | .contextLength =>
    modify fun run => { run with contextLengthHandoff := true }
    modify fun run => run.withProvenance fun p => { p with contextLengthError := true }
  | .failure => recordAndOpen host routeKey (·.failed routeKey) (·.tooManyFailures routeKey)
  | .rejection => recordAndOpen host routeKey (·.rejected routeKey) (·.tooManyRejections routeKey)
  | _ => pure ()

/-- What follows from an outcome that is no cut: the result that is returned, or nothing when the
next route is tried. -/
def settleReply (candidate routeKey : Text) (attempt : SummaryAttempt) (kind : SummaryOutcomeKind) :
    Summarise (Option Text) := do
  match kind with
  | .accepted =>
    modify fun run => run.withBreaker fun b => b.recordSuccess routeKey
    modify fun run => run.withProvenance fun p => { p with model := some candidate }
    pure attempt.text
  | .verbatimSmallSource =>
    modify fun run => run.withProvenance fun p => { p with model := some "deterministic".toList }
    pure attempt.text
  | kind =>
    recordUnusable host routeKey attempt kind
    pure none

def settle (candidate routeKey : Text) (attempt : SummaryAttempt) (outcome : SummaryOutcome) :
    Summarise (Option Text) := do
  if outcome.kind = .budgetCut then cutByBudget host routeKey outcome
  else
    noteReportedRoute attempt.text.isNone routeKey attempt
    settleReply host candidate routeKey attempt outcome.kind

/-- The end of a chain without a result: the log line for a chain whose routes are all open reads the breaker. -/
def endRoutes (chain : List Text) (skipped : Nat) : Summarise (Option Text) := do
  if skipped = chain.length then
    let _ ← theBreaker
    pure none
  else pure none

/-- The routes that are left of a chain. -/
def tryRoutes (args : ChainArgs) (chain : List Text) : (left : List Text) → (skipped : Nat) → Summarise (Option Text)
  | [], skipped => endRoutes chain skipped
  | candidate :: left, skipped => do
    let routeKey := args.routeKeyPrefix ++ candidate
    if ← refused host routeKey then tryRoutes args chain left (skipped + 1)
    else
      let call ← callTimeout host args.timeout args.deadline routeKey
      if ← takeSlot host then
        let attempt ← invokeSummaryAttempt host args.prompt args.maxTokens candidate call.1 args.reasoningEffort
        noteAttempt routeKey attempt
        let facts ← outcomeFacts host args attempt call
        let outcome ← ofExcept (classifySummaryOutcome host.isWord attempt facts)
        match ← settle host candidate routeKey attempt outcome with
        | some result => pure (some result)
        | none => tryRoutes args chain left skipped
      else endRoutes chain skipped

/-- `_invoke_summary_llm_routes` -/
def invokeSummaryLlmRoutes (args : ChainArgs) : Summarise (Option Text) :=
  tryRoutes host args (summaryModelChain args.model args.fallbackModels)
    (summaryModelChain args.model args.fallbackModels) 0

def noteSummaryFailure (run : Run) : Run :=
  match run.chainError with
  | some name => run.withBudget fun b => { b with summaryFailure := "summary call failed: ".toList ++ name }
  | none => run

/-- `_invoke_summary_llm_chain` -/
def invokeSummaryLlmChain (args : ChainArgs) : Summarise (Option Text) := do
  modify fun run => { run with chainError := none, contextLengthHandoff := false }
  let result ← onFailure (invokeSummaryLlmRoutes host args) noteSummaryFailure
  modify fun run => if result.isSome ∨ run.contextLengthHandoff then run else noteSummaryFailure run
  pure result

/-! ## The levels -/

structure EscalationArgs where
  text : Text
  sourceTokens : Int
  tokenBudget : Int
  depth : Int := 0
  model : Text := []
  timeout : Option ℚ := none
  reasoningEffort : Text := []
  l2BudgetRatio : ℚ := 1 / 2
  l3TruncateTokens : Int := 512
  focusTopic : Text := []
  customInstructions : Text := []
  fallbackModels : List Text := []
  promptVersion : Int := 1
  deadline : Option ℚ := none
  routeKeyPrefix : Text := []
  verbatimSmallSource : Bool := false
  contextLengthRescue : Bool := false

namespace EscalationArgs

variable (args : EscalationArgs)

/-- `verbatim_source` -/
def verbatimSource : Bool := countTokensWith host.encoder args.text ≤ args.l3TruncateTokens

/-- `whole_if_not_shorter` -/
def wholeIfNotShorter : Bool :=
  args.verbatimSmallSource && decide ((countTokensWith host.encoder args.text : Int) ≤ 2 * args.l3TruncateTokens)

def acceptsResult (result : Text) : Bool := decide ((countTokensWith host.encoder result : Int) < args.sourceTokens)

/-- `int(token_budget * l2_budget_ratio)` -/
def l2Budget : Int :=
  let product : ℚ := args.tokenBudget * args.l2BudgetRatio
  if product < 0 then ⌈product⌉ else ⌊product⌋

def l1Prompt : Prompt := .l1 args.text args.tokenBudget args.depth args.focusTopic
    args.customInstructions args.promptVersion

def l2Prompt : Prompt := .l2 args.text args.l2Budget args.focusTopic args.customInstructions args.promptVersion

def chainArgs (prompt : Prompt) (tokenBudget : Int) : ChainArgs where
  prompt := prompt
  maxTokens := tokenBudget * (if args.promptVersion = 2 then 3 else 2)
  model := args.model
  fallbackModels := args.fallbackModels
  timeout := args.timeout
  reasoningEffort := args.reasoningEffort
  acceptsResult := some (args.acceptsResult host)
  sourceTokens := some args.sourceTokens
  deadline := args.deadline
  routeKeyPrefix := args.routeKeyPrefix
  verbatimSmallSource := args.wholeIfNotShorter host
  contextLengthRescue := args.contextLengthRescue

end EscalationArgs

/-- Time that is spent never yields the last level. -/
def checkTime (deadline : Option ℚ) : Summarise Unit := do
  let run ← get
  match if run.budget.isSome then run.budget.map ForegroundBudget.usableDeadline else deadline with
  | none => pure ()
  | some deadline =>
    let now ← readClock host
    if thresholdFullSweepMinCallSeconds ≤ deadline - now then pure ()
    else if run.budget.isSome then stop timeBudgetExhausted "time_budget_exhausted"
    else throw (.sweepBudgetExhausted timeBudgetExhausted "time_budget_exhausted")

/-- The last level. -/
def truncateSource (args : EscalationArgs) : Summarise (Text × Nat) := do
  checkTime host args.deadline
  modify fun run => run.withProvenance fun p => { p with model := some "deterministic".toList }
  pure (deterministicTruncateWith host.encoder args.text args.l3TruncateTokens, 3)

/-- What a level returns for the result of its chain; nothing when the next level is tried. -/
def levelResult (args : EscalationArgs) (level : Nat) : Option Text → Option (Text × Nat)
  | none => none
  | some [] => none
  | some result =>
    if args.wholeIfNotShorter host && decide
      (args.sourceTokens ≤ (countTokensWith host.encoder result : Int)) then some (args.text, 3)
    else some (result, level)

/-- `summarize_with_escalation` -/
def summarizeWithEscalation (args : EscalationArgs) : Summarise (Text × Nat) := do
  if args.verbatimSmallSource && args.verbatimSource host then
    modify fun run => run.withProvenance fun p => { p with model := some "deterministic".toList }
    pure (args.text, 3)
  else
    match levelResult host args 1
      (← invokeSummaryLlmChain host (args.chainArgs host args.l1Prompt args.tokenBudget)) with
    | some result => pure result
    | none =>
      match levelResult host args 2
        (← invokeSummaryLlmChain host (args.chainArgs host args.l2Prompt args.l2Budget)) with
      | some result => pure result
      | none => truncateSource host args

end

end Escalation
