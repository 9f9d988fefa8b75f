import Mathlib.Data.List.Sort
import Mathlib.Data.String.Basic
import LcmX.LedgerCodec

/-!
# The incoming view

`build_view` of `ingest_classifier.py`: the rows of one host view with their
digests, stamps, uids and tool segments. What the text helpers of `reconcile.py`,
`store.py` and `message_content.py` compute is a parameter; the classifier never
looks inside.
-/
namespace Classifier

open IngestLedger Packed

inductive UidMode where
  | off
  | shadow
  | on
deriving DecidableEq, Repr

/-- A tool call, as an id and the rest of its JSON text. -/
structure ToolCall where
  id : Option String
  body : String
deriving DecidableEq, Repr

/-- A host message. `content` is what `normalize_content_value` makes of it; a tool call that is not an
object is `none`. -/
structure Message where
  role : Option String
  content : Option String
  toolCalls : List (Option ToolCall)
  toolCallId : Option String
  toolName : Option String
  name : Option String
  messageUid : Option String
  absorbedMessageUids : List String
  timestamp : Option String
deriving DecidableEq, Repr

/-- `str(value or "")`. -/
def text (value : Option String) : String := value.getD ""

def truthy (value : Option String) : Bool := text value ≠ ""

/-- `normalize_content_value(message.get("content")) or ""`. -/
def Message.text (m : Message) : String := Classifier.text m.content

/-- `role, content, tool_call_id, tool_calls, tool_name`. -/
abbrev Identity := List String

/-- The text helpers that digests and stamps are made with. -/
structure Helpers where
  /-- `_strip_volatile_host_scaffolding`. -/
  stripScaffolding : String → String
  /-- `_stable_tool_calls_identity`. -/
  toolCallsIdentity : List (Option ToolCall) → String
  /-- `stamp_text(_normalize_observed_at(value))`. -/
  stampText : Option String → Option String
  stampText_ne_empty : ∀ value, stampText value ≠ some ""
  /-- `hashlib.blake2b` with a key and 16 bytes of digest. -/
  blake2b : Bytes → Bytes → Bytes
  length_blake2b : ∀ key input, (blake2b key input).length = 16

namespace Helpers

variable (h : Helpers) (salt : Bytes)

/-- A text part of a digest: its tag, its length and its bytes. -/
def part (value : String) : Bytes :=
  let payload := value.toUTF8.toList
  0x73 :: (bigEndian 8 payload.length ++ payload)

def ledgerDigest (parts : List String) : Bytes := h.blake2b salt (parts.flatMap part)

def role (m : Message) : String := if truthy m.role then Classifier.text m.role else "unknown"

def identityTuple (m : Message) : Identity :=
  [role m, h.stripScaffolding m.text, text m.toolCallId, h.toolCallsIdentity m.toolCalls,
    if role m = "tool" then (if truthy m.toolName then text m.toolName else text m.name) else ""]

def identityDigest (m : Message) : Bytes := h.ledgerDigest salt (h.identityTuple m)

def stampDigest (stamp : Option String) : Option Bytes := stamp.map fun s => h.ledgerDigest salt [s]

/-- `sorted(set(absorbed))`. -/
def sortedSet (l : List String) : List String := l.eraseDups.insertionSort (· ≤ ·)

def uidsetDigest (uid : Option String) (absorbed : List String) : Option Bytes :=
  if truthy uid then some (h.ledgerDigest salt (text uid :: sortedSet absorbed)) else none

end Helpers

/-- `_MAX_UID_CHARS` of `host_uid.py`. -/
def maxUidChars : Nat := 256

def validUid (uid : String) : Bool := 0 < uid.length && uid.length ≤ maxUidChars

structure IncomingRow where
  index : Nat
  role : String
  neverStored : Bool
  identityDigest : Bytes
  stampDigest : Option Bytes
  uidsetDigest : Option Bytes
  stamp : Option String
  uid : Option String
  absorbedUids : List String
  toolCallId : String
  toolSegment : Option Nat
  message : Message
deriving DecidableEq, Repr

/-- The stack of open assistants for each tool call id. -/
abbrev Calls := String → List Nat

/-- The ids that an assistant row opens. -/
def openedIds (m : Message) : List String := (m.toolCalls.filterMap fun c => c.map fun c => text c.id).filter (· ≠ "")

/-- `segment` of the row at `i`, and the stacks after it. -/
def nextSegment (i : Nat) (m : Message) (calls : Calls) : Option Nat × Calls :=
  let opens := Helpers.role m = "assistant" ∧ m.toolCalls ≠ []
  let calls : Calls := if opens then fun cid => if cid ∈ openedIds m then i :: calls cid else calls cid else calls
  let cid := text m.toolCallId
  if Helpers.role m = "tool" then
    match calls cid with
    | [] => (none, calls)
    | start :: rest => (some start, Function.update calls cid rest)
  else (if opens then some i else none, calls)

def incomingRow (h : Helpers) (salt : Bytes) (neverStored : Option (Message → Bool)) (i : Nat) (segment : Option Nat)
    (m : Message) : IncomingRow :=
  let uid := m.messageUid.filter validUid
  let absorbed := m.absorbedMessageUids.filter validUid
  let stamp := h.stampText m.timestamp
  { index := i
    role := Helpers.role m
    neverStored := match neverStored with
      | none => Helpers.role m = "system"
      | some f => f m
    identityDigest := h.identityDigest salt m
    stampDigest := h.stampDigest salt stamp
    uidsetDigest := h.uidsetDigest salt uid absorbed
    stamp := stamp
    uid := uid
    absorbedUids := absorbed
    toolCallId := text m.toolCallId
    toolSegment := segment
    message := m }

def buildRows (h : Helpers) (salt : Bytes) (neverStored : Option (Message → Bool)) : Nat → Calls → List Message →
    List IncomingRow
  | _, _, [] => []
  | i, calls, m :: messages =>
    incomingRow h salt neverStored i (nextSegment i m calls).1 m ::
      buildRows h salt neverStored (i + 1) (nextSegment i m calls).2 messages

def buildView (h : Helpers) (salt : Bytes) (messages : List Message) (neverStored : Option (Message → Bool)) :
    List IncomingRow :=
  buildRows h salt neverStored 0 (fun _ => []) messages

end Classifier
