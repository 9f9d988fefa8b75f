import LcmX.ReplaySnapshot
import Mathlib

/-!
# Assistant rows in active context

An assistant message is shown without its reasoning. The replay identity of a row
that was cleaned so is found from the identity of the stored one; a row of another
role keeps its identity.
-/
namespace Reconcile

open Regex PyText

attribute [local instance] PyText.lawfulBEq_text

/-! ## Reasoning blocks -/

/-- The character that a backreference compares. -/
def tagLower (c : Char) : Char := if c.toNat = 0x130 then 'i' else if c.toNat = 0x212a then 'k' else c.toLower

/-- `<(?P<tag>think|thinking|reasoning|thought|REASONING_SCRATCHPAD)\s*>`, ignoring the case. -/
def thinkOpenRe : Re :=
  .seq (lit "<".toList) (.seq
    (.group 1 (.or (litIgnoringCase "think".toList)
      (.or (litIgnoringCase "thinking".toList) (.or (litIgnoringCase "reasoning".toList)
      (.or (litIgnoringCase "thought".toList) (litIgnoringCase "REASONING_SCRATCHPAD".toList))))))
    (.seq (star (.char isSpace)) (lit ">".toList)))

def tagRe : List Char → Re
  | [] => .empty
  | c :: tag => .seq (.char fun d => tagLower d = tagLower c) (tagRe tag)

/-- `</(?P=tag)\s*>`. -/
def thinkCloseRe (tag : List Char) : Re :=
  .seq (lit "</".toList) (.seq (tagRe tag) (.seq (star (.char isSpace)) (lit ">".toList)))

/-- The length of the block that starts here. -/
def thinkBlock (text : List Char) : Option Nat :=
  match matchText thinkOpenRe [] text with
  | none => none
  | some opening => (search (thinkCloseRe ((opening.group 1).getD [])) [] (text.drop opening.stop)).map
        fun m => opening.stop + m.stop

def stripReasoningFrom : Nat → List Char → List Char
  | 0, text => text
  | _ + 1, [] => []
  | fuel + 1, c :: rest =>
    match thinkBlock (c :: rest) with
    | some length => stripReasoningFrom fuel ((c :: rest).drop length)
    | none => c :: stripReasoningFrom fuel rest

def stripReasoningBlocks (text : List Char) : List Char := stripReasoningFrom text.length text

/-- The text without its reasoning, if anything of it can be seen. -/
def visibleText (text : List Char) : Option (List Char) :=
  let stripped := stripReasoningBlocks text
  if strip stripped = [] then none else some stripped

/-! ## Structured contents -/

def visibleTextPartTypes : List (List Char) := ["text".toList, "input_text".toList, "output_text".toList]

def internalAssistantPartTypes : List (List Char) :=
  ["analysis".toList, "chain_of_thought".toList, "internal".toList, "reasoning".toList, "redacted_thinking".toList,
    "scratchpad".toList, "thought".toList, "thinking".toList]

/-- The type of a part; what is no string is of no type that is named above. -/
def partType (part : List (String × Json.Value)) : List Char :=
  match part.lookup "type" with
  | some (.str s) => lower (strip s.toList)
  | _ => []

/-- The text of the first of some keys that holds one. -/
def firstText (part : List (String × Json.Value)) (keys : List String) : Option String :=
  keys.firstM fun key =>
    match part.lookup key with
    | some (.str s) => some s
    | _ => none

def structuredPartText (part : List (String × Json.Value)) : List Char :=
  let found := ["text", "content", "value"].firstM fun key =>
    match part.lookup key with
    | some (.str s) => some s
    | some (.obj nested) => firstText nested ["value", "content"]
    | _ => none
  (found.getD "").toList

def structuredPartHasVisibleAssistantContent : Json.Value → Bool
  | .null => false
  | .str s => (visibleText s.toList).isSome
  | .obj part =>
    if partType part ∈ internalAssistantPartTypes then false
    else if partType part ∈ visibleTextPartTypes then (visibleText (structuredPartText part)).isSome
    else true
  -- bool(str(part).strip())
  | _ => true

/-- The part with the reasoning taken out of its text: nothing when no key holds one, and nothing inside it when
nothing of that text can be seen. -/
def stripPartText (part : List (String × Json.Value)) : List String → Option (Option (List (String × Json.Value)))
  | [] => none
  | key :: keys =>
    match part.lookup key with
    | some (.str s) => some ((visibleText s.toList).map fun text => Json.setMember part key (.str (String.ofList text)))
    | some (.obj nested) =>
      let found := ["value", "content", "text"].firstM fun inner => (firstText nested [inner]).map fun s => (inner, s)
      match found with
      | some (inner, s) =>
        some ((visibleText s.toList).map fun text =>
          Json.setMember part key (.obj (Json.setMember nested inner (.str (String.ofList text)))))
      | none => stripPartText part keys
    | _ => stripPartText part keys

def stripStructuredTextPart (part : List (String × Json.Value)) : Option (List (String × Json.Value)) :=
  (stripPartText part ["text", "content", "value"]).getD
    (if structuredPartHasVisibleAssistantContent (.obj part) then some part else none)

def sanitizePart (part : Json.Value) : Option Json.Value :=
  let kept := if structuredPartHasVisibleAssistantContent part then some part else none
  match part with
  | .str s => (visibleText s.toList).map fun text => .str (String.ofList text)
  | .obj members =>
    if partType members ∈ internalAssistantPartTypes then none
    else if partType members ∈ visibleTextPartTypes then (stripStructuredTextPart members).map .obj
    else kept
  | _ => kept

def sanitizeActiveAssistantContent : Json.Value → Option Json.Value
  | .null => none
  | .str s => (visibleText s.toList).map fun text => .str (String.ofList text)
  | .arr parts => if parts.filterMap sanitizePart = [] then none else some (.arr (parts.filterMap sanitizePart))
  | .obj part => sanitizePart (.obj part)
  | content => some content

/-! ## Identities -/

/-- `json.dumps(value, ensure_ascii=False, sort_keys=True)`. -/
def sortedStyle : Json.Style := ⟨false, ", ".toList, ": ".toList, true⟩

def normalizeContentValue : Json.Value → List Char
  | .null => []
  | .str s => s.toList
  | content => Json.dumps sortedStyle content

/-- A stored text that is the canonical text of a list or a dict is taken as that. -/
def identityContentForActiveCleanup (content : String) : Json.Value :=
  match Json.loads content.toList with
  | some (.arr items) => if normalizeContentValue (.arr items) = content.toList then .arr items else .str content
  | some (.obj members) => if normalizeContentValue (.obj members) = content.toList then .obj members else .str content
  | _ => .str content

/-- The truth of a value. -/
def isTruthy : Json.Value → Bool
  | .null => false
  | .bool b => b
  | .int n => n ≠ 0
  | .float first rest => (first :: rest.toList).all (fun c => !Json.isDigit c) ||
      (((first :: rest.toList).takeWhile fun c => c ≠ 'e' && c ≠ 'E').any fun c => Json.isDigit c && c ≠ '0')
  | .str s => s ≠ ""
  | .arr items => !items.isEmpty
  | .obj members => !members.isEmpty

/-- A text of tool calls that is no JSON stands for itself. -/
def hasToolCalls (toolCalls : String) : Bool :=
  toolCalls ≠ "" ∧ ((Json.loads toolCalls.toList).elim true isTruthy)

/-- `_active_cleanup_replay_identity`: nothing is left of a row that is only reasoning. -/
def activeCleanupIdentity (identity : ReplayIdentity) : Option ReplayIdentity :=
  if identity.role ≠ "assistant" then some identity
  else
    match sanitizeActiveAssistantContent (identityContentForActiveCleanup identity.content) with
    | some cleaned => some { identity with content := String.ofList (normalizeContentValue cleaned) }
    | none => if hasToolCalls identity.toolCalls then some { identity with content := "" } else none

theorem activeCleanupIdentity_other {identity : ReplayIdentity} (h : identity.role ≠ "assistant") :
    activeCleanupIdentity identity = some identity := if_pos h

theorem activeCleanupIdentity_role {identity cleaned : ReplayIdentity}
    (h : activeCleanupIdentity identity = some cleaned) :
    cleaned.role = identity.role := by
  rw [activeCleanupIdentity] at h
  split at h
  · rw [← Option.some.inj h]
  · split at h
    · rw [← Option.some.inj h]
    · split at h
      · rw [← Option.some.inj h]
      · cases h

end Reconcile
