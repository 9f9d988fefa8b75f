import LcmX.ReasoningBlocks
import LcmX.Truncation
import LcmX.SummaryOutcome

/-!
# The contract of a summary

A reply stands between an opening tag with a nonce and a closing tag, and its last line
is a hint at what was compressed. Some formatting mistakes are tolerated, each of which
rewrites the text that the next check sees.
-/
namespace Escalation

open Regex PyText

/-! ## The closing hint -/

def summaryHintLabel : Text := "expand for details about:".toList

def hintStart : Text := "Expand for details about: ".toList

/-- `_SUMMARY_EXPAND_HINT_RE`: `(?i)^Expand for details about:\s+\S.*$` -/
def summaryExpandHintRe : Re :=
  .seq (litIgnoringCase "Expand for details about:".toList)
    (.seq (plus (.char isSpace)) (.seq (.char fun c => !isSpace c)
    (.rep false 0 none (.char (· ≠ '\n')))))

def isExpandHint (line : Text) : Bool := (fullmatch summaryExpandHintRe [] line).isSome

/-- `candidate.split(":", 1)[1]` -/
def afterColon (candidate : Text) : Text := (candidate.dropWhile (· ≠ ':')).drop 1

/-- The double quote, the quote, the backquote, the star and the underscore. -/
def hintMarks : List Char := [0x22, 0x27, 0x60, 0x2a, 0x5f].map Char.ofNat

/-- The hint that is left when one layer of quotes or emphasis is taken off. -/
def undecorated (mark : Char) (line : Text) : Option Text :=
  let run := line.takeWhile (· = mark)
  let afterRun := line.drop run.length
  let labelEnd := summaryHintLabel.length
  if mark ∈ ['*', '_'] ∧ lower (afterRun.take labelEnd) = summaryHintLabel ∧ run <+: afterRun.drop labelEnd then
    some (afterRun.take labelEnd ++ afterRun.drop (labelEnd + run.length))
  else if (line.rtakeWhile (· = mark)).length = run.length ∧ 2 * run.length < line.length then
    some (strip (slice line run.length (line.length - run.length)))
  else none

/-- `_plain_expand_hint`, `none` for `""` -/
def plainExpandHint (line : Text) : Option Text :=
  match line with
  | [] => none
  | mark :: _ =>
    if mark ∉ hintMarks then none
    else
      match undecorated mark line with
      | none => none
      | some candidate => if isExpandHint candidate then some (hintStart ++ strip (afterColon candidate)) else none

/-- `re.subn(pattern, replacement, line, count=1)` of a pattern that starts with `^`, `none` when nothing changes -/
def subStart (a : Re) (replacement line : Text) : Option Text :=
  (matchText a [] line).map fun m => replacement ++ line.drop m.stop

def listMarkRe : Re := .seq
    (.or (.char fun c => c = '-' || c = '*' || c.toNat = 0x2022) (lit "1.".toList)) (plus (.char isSpace))

def headingMarkRe : Re := .seq (plus (.char (· = '#'))) (plus (.char isSpace))

/-- `(?i)^\*\*Expand for details about(?:\*\*:|:\*\*)(?=\s+\S)` -/
def boldLabelRe : Re :=
  .seq (lit "**".toList) (.seq (litIgnoringCase "Expand for details about".toList)
    (.seq (.or (lit "**:".toList) (lit ":**".toList))
    (.test fun _ ahead => ahead.head?.any isSpace && ahead.dropWhile isSpace ≠ [])))

/-- One of the rewritings of a hint line. -/
def rewriteHint (a : Re) (replacement : Text) (tag : String) (state : Text × List String) : Text × List String :=
  match subStart a replacement state.1 with
  | some line => (line, state.2 ++ [tag])
  | none => state

/-- `_normalize_expand_hint`, `none` for `""` -/
def normalizeExpandHint (line : Text) : Option Text × List String :=
  let state := rewriteHint boldLabelRe "Expand for details about:".toList "hint_bold_label"
    (rewriteHint headingMarkRe [] "hint_heading" (rewriteHint listMarkRe [] "hint_list" (line, [])))
  let plain := if isExpandHint state.1 then some state.1 else plainExpandHint state.1
  (plain, state.2 ++ if plain.isSome ∧ plain ≠ some state.1 then ["hint_decoration"] else [])

/-! ## Unclosed reasoning -/

section

/- What `\w` matches is given. -/
variable (isWord : Char → Bool)

/-- `_UNCLOSED_BODY_TAG_RE` -/
def unclosedBodyTagRe : Re :=
  let plainChars := Re.rep false 0 none (.char fun c => c ≠ '<' && c ≠ '>')
  oneOf
    [.seq (lit ['<']) (.seq (opt (.char fun c => c = '/' || c = '|')) (.seq (.char isLetterIgnoringCase)
      (.seq (.rep false 0 none (.char fun c => isWord c || c = ':' || c = '.' || c = '-'))
        (.seq (opt (.seq (.char isSpace) plainChars)) (.seq (opt (.char (· = '|'))) (lit ['>'])))))),
     .seq (lit ['[']) (.seq spaces (.seq (words reasoningWords) (.seq spaces (lit [']'])))),
     .seq (lit ['<']) (.seq spaces (.seq (opt (.seq (lit ['/']) spaces)) (.seq (words reasoningTags)
      (.seq (Sensitive.boundaryRe isWord) (.seq plainChars (lit ['>'])))))),
     .seq (lit ['<', '|']) (.seq spaces (.seq (opt (litIgnoringCase "start_of_".toList)) (.seq (words reasoningWords)
      (.seq spaces (lit ['|', '>'])))))]
where
  /-- `[A-Za-z]` in a pattern that ignores the case. -/
  isLetterIgnoringCase (c : Char) : Bool := isAlnumIgnoringCase c && !c.isDigit

/-- `^(?:\s*(?:[>*_`]+|[-•]|\d+\.)\s*)+` -/
def markdownMarksRe : Re :=
  plus (.seq spaces (.seq (oneOf [plus (.char fun c => c = '>' || c = '*' || c = '_' || c.toNat = 0x60),
    .char fun c => c = '-' || c.toNat = 0x2022, .seq (plus (.char isDecimal)) (lit ['.'])]) spaces))

/-- Whether a body without a closing tag may hide reasoning. -/
def hidesReasoning (body : Text) : Bool :=
  (search (unclosedBodyTagRe isWord) [] body).isSome ||
    (splitlines body).any fun line => startsReasoning ((subStart markdownMarksRe [] line).getD line)

end

/-! ## The envelope -/

def openingHead : Text := "<lcm-summary nonce=\"".toList

def openingEnd : Text := "\">".toList

/-- `<lcm-summary nonce="..">` -/
def openingTag (nonce : Text) : Text := openingHead ++ (nonce ++ openingEnd)

def summaryCloser : Text := "</lcm-summary>".toList

def wrapperOpener : Text := "<summary>".toList

def wrapperCloser : Text := "</summary>".toList

def rstrip (text : Text) : Text := text.rdropWhile isSpace

/-- `before` without the closers at its end. -/
def dropClosers (before : Text) : Text :=
  if _h : summaryCloser <:+ before then
    dropClosers (rstrip (before.take (before.length - summaryCloser.length))) else before
termination_by before.length
decreasing_by
  have hlen := _h.length_le
  have hprefix : rstrip (before.take (before.length - summaryCloser.length)) <+: before.take
      (before.length - summaryCloser.length) :=
    List.rdropWhile_prefix _ _
  have hle := hprefix.length_le
  have hpos : summaryCloser.length = 14 := by decide
  rw [List.length_take] at hle
  omega

/-- The text of a reply with the closing tag that it is read with. -/
structure Envelope where
  stripped : Text
  closingTag : Text
  tolerated : List String

def envelope (content : Text) : Envelope :=
  let stripped := strip content
  if ¬ summaryCloser <:+ stripped ∧ wrapperCloser <:+ stripped then ⟨stripped, wrapperCloser, ["summary_closer"]⟩
  else if summaryCloser <:+ stripped then
    let before := rstrip (stripped.take (stripped.length - summaryCloser.length))
    if summaryCloser <:+ before then ⟨dropClosers before ++ '\n' :: summaryCloser, summaryCloser, ["repeated_closer"]⟩
    else ⟨stripped, summaryCloser, []⟩
  else ⟨stripped, summaryCloser, []⟩

namespace Envelope

variable (e : Envelope)

def unclosed : Bool := !decide (e.closingTag <:+ e.stripped)

def notes : List String := e.tolerated ++ if e.unclosed then ["unclosed_envelope"] else []

def body (nonce : Text) : Text :=
  if e.unclosed then strip (e.stripped.drop (openingTag nonce).length)
  else strip (slice e.stripped (openingTag nonce).length (e.stripped.length - e.closingTag.length))

end Envelope

/-- What `_SUMMARY_WRAPPER_RE` takes as the inner text; a body ends with no line break. -/
def wrappedText (body : Text) : Option Text :=
  if wrapperOpener <+: body ∧ wrapperCloser <:+ body.drop wrapperOpener.length then
    some (slice body wrapperOpener.length (body.length - wrapperCloser.length))
  else none

def unwrapped (body : Text) : Text × List String :=
  match wrappedText body with
  | none => (body, [])
  | some inner =>
    if contains wrapperOpener inner ∨ contains wrapperCloser inner then (body, [])
    else (strip inner, ["summary_wrapper"])

/-- `text.count(needle)` -/
def countFrom (needle : Text) : Nat → Text → Nat
  | 0, _ => 0
  | fuel + 1, text =>
    if needle <+: text then 1 + countFrom needle fuel (text.drop needle.length)
    else
      match text with
      | [] => 0
      | _ :: rest => countFrom needle fuel rest

def count (needle text : Text) : Nat := countFrom needle (text.length + 1) text

/-! ## The lines of a body -/

/-- `\[(?:SILENT|NO_REPLY)\]|SILENT|NO_REPLY`, ignoring the case. -/
def isControl (line : Text) : Bool :=
  (fullmatch (words (["[SILENT]", "[NO_REPLY]", "SILENT", "NO_REPLY"].map String.toList)) [] line).isSome

def nonemptyLines (lines : List Text) : List Nat :=
  (List.range lines.length).filter fun i => strip (lines.getD i []) ≠ []

/-- How many control lines stand at the end. -/
def controls (lines : List Text) : Nat :=
  ((nonemptyLines lines).reverse.takeWhile fun i => isControl (strip (lines.getD i []))).length

/-- The body up to its hint, where one or two control lines follow it. -/
def withoutControls (body : Text) : Text × List String :=
  let lines := splitlines body
  let nonempty := nonemptyLines lines
  let n := controls lines
  let last := nonempty.getD (nonempty.length - n - 1) 0
  if 1 ≤ n ∧ n ≤ 2 ∧ n < nonempty.length ∧ (normalizeExpandHint (strip (lines.getD last []))).1.isSome then
    (rstrip (List.intercalate ['\n'] (lines.take (last + 1))), ["hint_trailing_control"])
  else (body, [])

/-- `body.splitlines()[-1]` -/
def lastLine (body : Text) : Text := (splitlines body).getLastD []

/-- The plain form of the last line where it is no hint as it stands. -/
def plainLine (line : Text) : Option (Text × List String) :=
  if isExpandHint (strip line) then some (line, [])
  else
    match plainExpandHint (strip line) with
    | some plain => some (plain, ["hint_decoration"])
    | none => (normalizeExpandHint (strip line)).1.map fun plain => (plain, (normalizeExpandHint (strip line)).2)

/-- The body with its last line in its plain form. -/
def closingHint (body : Text) : Option (Text × List String) :=
  (plainLine (lastLine body)).map fun hint => (body.take (body.length - (lastLine body).length) ++ hint.1, hint.2)

/-! ## The checks -/

def minimumBodyTokens (maxTokens : Int) : Int := max 4 (min 16 (max 1 (maxTokens / 16)))

section

variable (isWord : Char → Bool) (encoder : Option Encoder)

/-- The checks of a body that was taken out of its envelope. -/
def checkBody (e : Envelope) (body : Text) (notes : List String) (maxTokens : Int) : Text × String × List String :=
  let tooShort := fun text : Text => decide ((countTokensWith encoder text : Int) < minimumBodyTokens maxTokens)
  if e.unclosed && hidesReasoning isWord body then ([], "envelope", [])
  else if tooShort body then ([], if e.unclosed then "envelope" else "short_body", [])
  else
    let kept := withoutControls body
    match closingHint kept.1 with
    | none => ([], if e.unclosed then "envelope" else "closing_hint", [])
    | some hint =>
      if tooShort hint.1 then ([], if e.unclosed then "envelope" else "short_body", [])
      else (hint.1, "", notes ++ (kept.2 ++ hint.2))

/-- `_check_summary_contract` -/
def checkSummaryContract (content nonce : Text) (maxTokens : Int) : Text × String × List String :=
  if nonce = [] then (content, "", [])
  else
    let e := envelope content
    if ¬ openingTag nonce <+: e.stripped then ([], "envelope", [])
    else if e.unclosed ∧ (contains summaryCloser e.stripped ∨ contains wrapperCloser e.stripped ∨
      contains wrapperOpener e.stripped) then
      ([], "envelope", [])
    else if count (openingTag nonce) e.stripped ≠ 1 then ([], if e.unclosed then "envelope" else "nonce_count", [])
    else checkBody isWord encoder e (unwrapped (e.body nonce)).1 (e.notes ++ (unwrapped (e.body nonce)).2) maxTokens

end

end Escalation
