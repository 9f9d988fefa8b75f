import LcmX.Lib.RegexLower
import Mathlib

/-!
# Reasoning blocks

A thinking model writes its reasoning between tags, and none of it may be kept in a
summary. Closed blocks are removed in one pass that remembers which tags are never
closed; what still starts with a tag is refused.
-/
namespace Escalation

open Regex PyText

attribute [local instance] PyText.lawfulBEq_text

def reasoningTags : List (List Char) :=
  ["think", "thinking", "reasoning", "thought", "REASONING_SCRATCHPAD"].map String.toList

def spaces : Re := star (.char isSpace)

/-- `_THINK_OPEN_RE`: `<(?P<tag>think|thinking|reasoning|thought|REASONING_SCRATCHPAD)\s*>`, ignoring the case. -/
def thinkOpenRe : Re := .seq (lit ['<'])
    (.seq (.group 1 (oneOf (reasoningTags.map litIgnoringCase))) (.seq spaces (lit ['>'])))

/-- `</(?P=tag)\s*>` for a captured tag. -/
def thinkCloseRe (tag : List Char) : Re := .seq (lit ['<', '/']) (.seq (litLowered tag) (.seq spaces (lit ['>'])))

/-- `_THINK_BLOCK_RE`: an opening tag, `.*?`, and the closing tag with its spelling. -/
def blockStates (s : State) : List State :=
  (run thinkOpenRe s).flatMap fun t =>
    run (.seq (.rep true 0 none (.char fun _ => true)) (thinkCloseRe ((t.group 1).getD []))) t

/-- `_THINK_BLOCK_RE.match` -/
def matchBlock (behind ahead : List Char) : Option State := (blockStates ⟨behind, ahead, []⟩).head?

/-- The text cut into the blocks, which do not overlap, and the characters between them. -/
def blockPieces : Nat → List Char → List Char → List (Char ⊕ List Char)
  | 0, _, _ => []
  | fuel + 1, behind, ahead =>
    match matchBlock behind ahead with
    | some t => .inr (ahead.take (t.pos - behind.length)) :: blockPieces fuel t.behind t.ahead
    | none =>
      match ahead with
      | [] => []
      | c :: rest => .inl c :: blockPieces fuel (c :: behind) rest

def cutBlocks (text : List Char) : List (Char ⊕ List Char) := blockPieces text.length [] text

def keptChars (pieces : List (Char ⊕ List Char)) : List Char := pieces.filterMap Sum.getLeft?

/-- `_THINK_BLOCK_RE.sub("", text)` -/
def subBlocks (text : List Char) : List Char := keptChars (cutBlocks text)

/-- The loop of `_strip_reasoning_blocks`: what it puts out, and where the text that is left starts. -/
def stripLoop (text : List Char) : (fuel start last : Nat) → (unclosed out : List (List Char)) → List (List Char) × Nat
  | 0, _, last, _, out => (out, last)
  | fuel + 1, start, last, unclosed, out =>
    match search thinkOpenRe (text.take start).reverse (text.drop start) with
    | none => (out, last)
    | some opening =>
      let tag := lower ((opening.group 1).getD [])
      let block := if tag ∈ unclosed then none
        else matchBlock (text.take opening.start).reverse (text.drop opening.start)
      match block with
      | none => stripLoop text fuel (opening.start + 1) last (tag :: unclosed) out
      | some t => stripLoop text fuel t.pos t.pos unclosed (out ++ [slice text last opening.start])

/-- `_strip_reasoning_blocks` -/
def stripReasoningBlocks (text : List Char) : List Char :=
  if text = [] ∨ '<' ∉ text then text
  else
    let (out, last) := stripLoop text (text.length + 1) 0 0 [] []
    if out = [] then text else (out ++ [text.drop last]).flatten

/-! ## Unclosed reasoning -/

def reasoningWords : List (List Char) := ["think", "thinking", "reasoning", "thought"].map String.toList

def words (ws : List (List Char)) : Re := oneOf (ws.map litIgnoringCase)

def someSpaces : Re := plus (.char isSpace)

/-- `(?:#{1,6}\s*)?` -/
def headingMark : Re := opt (.seq (.rep false 1 (some 6) (.char (· = '#'))) spaces)

/-- `_REASONING_START_RE` -/
def reasoningStartRe : Re :=
  .seq spaces (oneOf
    [.seq (lit ['<']) (.seq spaces
      (.seq (words reasoningTags) (.seq (opt (.seq (.char isSpace) (star (.char (· ≠ '>'))))) (lit ['>'])))),
     .seq (lit ['<', '|']) (.seq spaces (.seq (opt (litIgnoringCase "start_of_".toList))
       (.seq (words reasoningWords) (.seq spaces (lit ['|', '>']))))),
     .seq (lit ['[']) (.seq spaces (.seq (words reasoningWords) (.seq spaces (lit [']'])))),
     .seq headingMark (.seq (words (["thinking", "reasoning", "thought"].map String.toList))
      (.seq someSpaces (.seq (litIgnoringCase "process".toList) (.seq spaces (lit [':']))))),
     .seq headingMark (.seq (litIgnoringCase "chain".toList) (.seq (plus (.char fun c => c = '-' ∨ isSpace c))
      (.seq (litIgnoringCase "of".toList) (.seq (plus (.char fun c => c = '-' ∨ isSpace c))
        (.seq (litIgnoringCase "thought".toList) (.seq spaces (lit [':'])))))))])

def startsReasoning (text : List Char) : Bool := (matchText reasoningStartRe [] text).isSome

/-- `_sanitize_reasoning_summary` -/
def sanitizeReasoningSummary (text : List Char) : List Char :=
  let stripped := strip (stripReasoningBlocks text)
  if stripped = [] ∨ startsReasoning stripped then [] else stripped

/-! ## Tags -/

/-- A spelling of one of the names. -/
def IsTagName (tag : List Char) : Prop :=
  ∃ name ∈ reasoningTags, List.Forall₂ (fun c d => ignoringCase c d = true) name tag

/-- An opening tag with its name. -/
def IsOpening (tag w : List Char) : Prop :=
  IsTagName tag ∧ ∃ sp, (∀ c ∈ sp, isSpace c = true) ∧ w = '<' :: (tag ++ (sp ++ ['>']))

/-- A closing tag whose name is spelled as `tag`, lowered. -/
def IsClosing (tag w : List Char) : Prop :=
  ∃ name sp, name.map lowered = tag.map lowered ∧ (∀ c ∈ sp, isSpace c = true) ∧
    w = '<' :: '/' :: (name ++ (sp ++ ['>']))

/-- A text that starts with an opening tag and has its closing tag behind it. -/
def StartsBlock (text : List Char) : Prop :=
  ∃ tag w x c rest, IsOpening tag w ∧ IsClosing tag c ∧ text = w ++ (x ++ (c ++ rest))

/-- Somewhere an opening tag is followed by a closing tag of its spelling. -/
def HasClosedBlock (text : List Char) : Prop := ∃ front back, text = front ++ back ∧ StartsBlock back

/-- What is left of a text when its blocks are taken out: the leftmost first, each from its opening
tag through the nearest closing tag of its spelling. -/
inductive Removal : List Char → List Char → Prop
  | done : Removal [] []
  | keep {c rest out} : ¬ StartsBlock (c :: rest) → Removal rest out → Removal (c :: rest) (c :: out)
  | remove {tag w x c rest out} : IsOpening tag w → IsClosing tag c →
      (∀ x' c' rest', x ++ (c ++ rest) = x' ++ (c' ++ rest') → IsClosing tag c' → x.length ≤ x'.length) →
      Removal rest out → Removal (w ++ (x ++ (c ++ rest))) out

end Escalation
