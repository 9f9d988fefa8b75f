import LcmX.SensitivePatterns
import LcmX.Truncation

/-!
# Outcomes of a summary call

One call of the summariser gives a text or an error, with the clock readings around it.
What the chain of routes does next is decided from these values alone.
-/
namespace Escalation

open Regex PyText

/-! ## Errors of a provider -/

/-- An error with what the predicates read of it: `str(exc)`, the status and the texts that it carries. -/
structure ProviderError where
  typeName : Text := []
  isTimeoutError : Bool := false
  message : Text := []
  statusCode : Option Int := none
  responseStatusCode : Option Int := none
  status : Option Int := none
  body : Text := []
  responseText : Text := []

section

/- What `\w` matches is given. -/
variable (isWord : Char → Bool)

/-- `_STATUS_IN_MESSAGE_RE`: `(?:error code|status(?: code)?)\s*[:=]?\s*(\d{3})\b` -/
def statusInMessageRe : Re :=
  .seq (.or (lit "error code".toList) (.seq (lit "status".toList) (opt (lit " code".toList))))
    (.seq (.rep false 0 none (.char isSpace)) (.seq (opt (.char fun c => c = ':' || c = '='))
      (.seq (.rep false 0 none (.char isSpace))
        (.seq (.group 1 (.rep false 3 (some 3) (.char isDecimal))) (Sensitive.boundaryRe isWord)))))

/-- The value of a decimal digit of any script. -/
def decimalValue (c : Char) : Nat :=
  ((decimalZeros.find? fun z => z ≤ c.toNat && c.toNat ≤ z + 9).map (c.toNat - ·)).getD 0

def statusInMessage (message : Text) : Option Int :=
  (search (statusInMessageRe isWord) [] message).map fun m =>
    (((m.group 1).getD []).foldl (fun n c => n * 10 + decimalValue c) 0 : Nat)

/-- `getattr(exc, "status_code", None) or getattr(response, "status_code", None)`, else the status
that the text names. -/
def errorStatus (error : ProviderError) (message : Text) : Option Int :=
  let status := if error.statusCode = none ∨ error.statusCode = some 0 then error.responseStatusCode
    else error.statusCode
  if status = none then statusInMessage isWord message else status

def containsAny (tokens : List String) (text : Text) : Bool := tokens.any fun token => contains token.toList text

def routeConfigErrorTokens : List String :=
  ["model not found", "model_not_found", "unknown model", "no such model", "is not a valid model",
    "model not supported",
    "model is not supported", "model_not_supported", "unsupported model"]

def routeConfigErrorGenericTokens : List String := ["not_found_error", "does not exist", "not supported when using"]

def notRouteConfigTokens : List String :=
  ["context length", "context_length", "context window", "maximum context", "too many tokens",
    "rate limit", "rate_limit",
    "too many requests", "billing", "credits", "insufficient", "quota", "payment", "free tier", "timed out", "timeout"]

/-- `is_summary_route_config_error` -/
def isSummaryRouteConfigError : Option ProviderError → Bool
  | none => false
  | some error =>
    let message := lower error.message
    let status := errorStatus isWord error message
    if error.isTimeoutError then false
    else if status ∉ [some 400, some 404, none] ∨ containsAny notRouteConfigTokens message then false
    else containsAny routeConfigErrorTokens message ||
      (contains "model".toList message && containsAny routeConfigErrorGenericTokens message)

def contextLengthErrorTokens : List String :=
  ["context length", "context_length", "context window", "maximum context", "max context",
    "too many tokens", "token limit",
    "prompt is too long", "input too long", "request too large", "context limit", "maximum number of tokens"]

def notContextLengthTokens : List String := ["rate limit", "rate_limit", "too many requests", "quota"]

/-- `re.sub(r"[-_\s]+", " ", message)` -/
def joinSeparators (message : Text) : Text :=
  sub (.rep false 1 none (.char fun c => c = '-' || c = '_' || isSpace c)) (fun _ => [' ']) message

/-- `is_summary_context_length_error` -/
def isSummaryContextLengthError : Option ProviderError → Bool
  | none => false
  | some error =>
    let message := lower error.message
    let status := errorStatus isWord error message
    if error.isTimeoutError then false
    else if status = some 429 ∨ error.status = some 429 then false
    else if notContextLengthTokens.any fun token => contains
      (token.toList.map fun c => if c = '_' then ' ' else c) (joinSeparators message) then false
    else containsAny contextLengthErrorTokens message

/-- `is_summary_content_filter_error` -/
def isSummaryContentFilterError : Option ProviderError → Bool
  | none => false
  | some error =>
    let message := lower (error.message ++ ' ' :: (error.body ++ ' ' :: error.responseText))
    let status := errorStatus isWord error message
    let numbered : Re := .seq (Sensitive.boundaryRe isWord) (.seq (lit "1301".toList) (Sensitive.boundaryRe isWord))
    if error.isTimeoutError then false
    else status = some 400 ∧ (containsAny ["contentfilter", "content_filter", "content_policy_violation"] message ∨
      ((search numbered [] message).isSome ∧ contains "sensitive".toList message))

end

/-! ## One attempt -/

structure SummaryTiming where
  started : ℚ
  ended : Option ℚ
  deadlineInstalled : Bool

/-- The route that the host reports, by key. -/
abbrev Route := List (String × Text)

structure SummaryAttempt where
  text : Option Text
  error : Option ProviderError
  route : Route
  contract : Text
  timing : SummaryTiming

inductive SummaryOutcomeKind where
  | budgetCut | accepted | verbatimSmallSource | rejected | configError | contentFilter
  | contextLength | failure | rejection
deriving DecidableEq, Repr

structure SummaryOutcome where
  kind : SummaryOutcomeKind
  reason : String := ""
  hang : Bool := false
  recordHang : Bool := false

structure SummaryOutcomeFacts where
  budgetPresent : Bool
  budgetBound : Bool
  callTimeout : Option ℚ
  configuredTimeout : ℚ
  hard : ℚ
  reserve : ℚ
  leafReserve : ℚ
  usableDeadline : ℚ
  now : ℚ
  breakerPresent : Bool
  acceptsResult : Bool
  verbatimSmallSource : Bool
  sourceTokens : Option Int
  resultTokens : Nat
  contextLengthRescue : Bool

/-- What a computation on the way to a summary raises. -/
inductive Raised where
  | sweepBudgetExhausted (message reason : String)
  /-- A `None` where the code needs a value. -/
  | noneError
deriving DecidableEq, Repr

/-- `is_budget_cut` -/
def isBudgetCut (error : Option ProviderError) (budgetBound : Bool) (wall : ℚ)
    (callTimeout : Option ℚ) (deadlineInstalled : Bool)
    (now usableDeadline : ℚ) : Bool :=
  match error with
  | none => false
  | some error =>
    let message := lower error.message
    let timeoutLike := error.isTimeoutError || contains "timed out".toList message || contains "timeout".toList message
    let atDeadline := decide (usableDeadline - 1 ≤ now)
    (timeoutLike && contains "host compression deadline".toList message) || (budgetBound && atDeadline) ||
      (timeoutLike && budgetBound && callTimeout.any fun t => t - 1 ≤ wall) ||
      (deadlineInstalled && callTimeout.any (fun t => t + 1 < wall) && atDeadline)

/-- Whether a call that the budget cut used its whole window. -/
def isHang (ended wall : ℚ) (deadlineInstalled : Bool) (facts : SummaryOutcomeFacts) : Except Raised Bool := do
  let most := facts.hard - facts.reserve - facts.leafReserve
  let fullWindow := if facts.budgetBound then min facts.configuredTimeout most else most
  let used ← if facts.budgetBound then
      match facts.callTimeout with
      | some t => pure (decide (9 / 10 * fullWindow ≤ t))
      | none => throw .noneError
    else pure false
  pure ((used || (deadlineInstalled && facts.usableDeadline - 1 ≤ ended)) && 9 / 10 * fullWindow ≤ wall)

/-- The outcome of an attempt that the budget did not cut. -/
def classifyReply (isWord : Char → Bool) (attempt : SummaryAttempt) (facts : SummaryOutcomeFacts) : SummaryOutcome :=
  let truthy := attempt.text.any (· ≠ [])
  if truthy && facts.acceptsResult then { kind := .accepted }
  else if truthy && facts.verbatimSmallSource &&
    (facts.sourceTokens.any fun n => n ≤ (facts.resultTokens : Int)) then { kind := .verbatimSmallSource }
  else if attempt.text.isSome then
    { kind := if facts.breakerPresent then .rejection else .rejected
      reason := if truthy then "not_shorter" else "no_content" }
  else if isSummaryRouteConfigError isWord attempt.error then { kind := .configError }
  else if isSummaryContentFilterError isWord attempt.error then { kind := .contentFilter }
  else if facts.contextLengthRescue && isSummaryContextLengthError isWord attempt.error then { kind := .contextLength }
  else { kind := .failure }

/-- `classify_summary_outcome` -/
def classifySummaryOutcome (isWord : Char → Bool) (attempt : SummaryAttempt)
    (facts : SummaryOutcomeFacts) : Except Raised SummaryOutcome := do
  if facts.budgetPresent && attempt.text.isNone then
    match attempt.timing.ended with
    | none => throw .noneError
    | some ended =>
      let wall := ended - attempt.timing.started
      if isBudgetCut attempt.error facts.budgetBound wall facts.callTimeout
        attempt.timing.deadlineInstalled facts.now facts.usableDeadline then
        let hang ← isHang ended wall attempt.timing.deadlineInstalled facts
        return { kind := .budgetCut, hang := hang, recordHang := facts.breakerPresent && hang }
  return classifyReply isWord attempt facts

end Escalation
