import LcmX.Lib.Json
import LcmX.Lib.PyText
import LcmX.Lib.Regex

/-!
# Digests of replay snapshots

A compaction leaves the digest of the list that it emitted, and an ingest compares
it with the prefixes of the list that it is given. Three namespaces have their own
conditions on a snapshot; the digest of an eligible one is over the version 1
envelope of the replay identities of its rows.
-/
namespace Reconcile

open Regex PyText

/-- `(role, content, tool_call_id, tool_calls, tool_name)`. -/
structure ReplayIdentity where
  role : String
  content : String
  toolCallId : String
  toolCalls : String
  toolName : String
deriving DecidableEq, Repr

/-- What the snapshots read of a message: the role, the normalized content, and the replay identity with or
without the alias of a pruned tool row. -/
structure Host (M : Type) where
  role : M → String
  content : M → String
  replayIdentity : M → Bool → ReplayIdentity

inductive ProofNamespace where
  | nativeRecovery
  | compactedActive
  | sessionEnd
deriving DecidableEq, Repr

/-! ## Lossy redactions -/

def isWordAscii (c : Char) : Bool := c.isAlphanum || c = '_'

/-- `\[LCM sensitive redaction: (?P<body>[^\]]+)\]`. -/
def redactionRe : Re :=
  .seq (lit "[LCM sensitive redaction: ".toList) (.seq (.group 1 (plus (.char (· ≠ ']')))) (.char (· = ']')))

/-- `([A-Za-z0-9_]+)=([^;]+)`. -/
def fieldRe : Re :=
  .seq (.group 1 (plus (.char isWordAscii))) (.seq (.char (· = '=')) (.group 2 (plus (.char (· ≠ ';')))))

/-- The fields of a redaction, the last one of a name first. -/
def redactionFields (body : List Char) : List (List Char × List Char) :=
  ((finditer fieldRe body).map fun m => ((m.group 1).getD [], (m.group 2).getD [])).reverse

def hasLossySensitiveRedaction (text : List Char) : Bool :=
  contains "[LCM sensitive redaction:".toList text ∧
    (finditer redactionRe text).any fun m =>
      let fields := redactionFields ((m.group 1).getD [])
      fields.lookup "name".toList = some "password_assignment".toList ∧ fields.lookup "sha256".toList = none

def hasLossyRedactedIdentity (identity : ReplayIdentity) : Bool :=
  hasLossySensitiveRedaction identity.content.toList || hasLossySensitiveRedaction identity.toolCalls.toList

section

variable {M : Type} (h : Host M)

/-! ## Anchors -/

def isLcmSystemNote (m : M) : Bool :=
  h.role m = "system" ∧
    contains "[Note: This conversation uses Lossless Context Management (LCM).".toList (h.content m).toList ∧
    contains "Earlier turns have been compacted into hierarchical summaries below.".toList (h.content m).toList

def digits : Re := plus (.char isDecimal)

/-- `\[(?:Recent|Session Arc|Durable|Depth-\d+) Summary \(d\d+, node \d+\)\]`. -/
def summaryRe : Re :=
  .seq (lit "[".toList) (.seq
    (.or (lit "Recent".toList)
      (.or (lit "Session Arc".toList) (.or (lit "Durable".toList) (.seq (lit "Depth-".toList) digits))))
    (.seq (lit " Summary (d".toList) (.seq digits (.seq (lit ", node ".toList) (.seq digits (lit ")]".toList))))))

def isGeneratedSummary (m : M) : Bool :=
  h.role m ≠ "system" ∧ contains "[Expand for details:".toList (h.content m).toList ∧
    (search summaryRe [] (h.content m).toList).isSome

/-! ## Identities and their envelope -/

/-- `_HERMES_SALVAGE_KEEP_RECENT_TOOLS`. -/
def salvageKeepRecentTools : Nat := 2

/-- The positions of the newest tool rows, which the salvage of the host cannot clear. -/
def salvageProtectedPositions (messages : List M) : List Nat :=
  let tools := (messages.zipIdx.filter fun p => h.role p.1 = "tool").map Prod.snd
  tools.drop (tools.length - salvageKeepRecentTools)

/-- The identity of the row at position `i`, where `recent` are the protected positions. -/
def identityAt (recent : List Nat) (m : M) (i : Nat) : ReplayIdentity := h.replayIdentity m (i ∉ recent)

def identitiesWith (recent : List Nat) (messages : List M) : List ReplayIdentity :=
  messages.zipIdx.map fun p => identityAt h recent p.1 p.2

end

def ReplayIdentity.json (i : ReplayIdentity) : Json.Value :=
  .arr [.str i.role, .str i.content, .str i.toolCallId, .str i.toolCalls, .str i.toolName]

/-- The bytes that are hashed for a list of identities. -/
def snapshotBytes (identities : List ReplayIdentity) : List UInt8 :=
  encode (Json.dumps Json.compact (.obj [("version", .int 1), ("messages", .arr (identities.map ReplayIdentity.json))]))

section

variable {M : Type} (h : Host M)

/-! ## One snapshot -/

/-- What `_replay_snapshot_digest` hashes, if it returns a digest at all. -/
def replaySnapshotBytes (requireLcmSystemNote : Bool) (messages : List M) : Option (List UInt8) :=
  if ¬ messages.any (isGeneratedSummary h) ∨ (requireLcmSystemNote ∧ ¬ messages.any (isLcmSystemNote h)) then none
  else some (snapshotBytes (identitiesWith h (salvageProtectedPositions h messages) messages))

/-- What `_native_recovery_replay_snapshot_digest` hashes. -/
def nativeRecoverySnapshotBytes (messages : List M) : Option (List UInt8) :=
  if messages = [] then none
  else
    let identities := identitiesWith h (salvageProtectedPositions h messages) messages
    if identities.any hasLossyRedactedIdentity then none else some (snapshotBytes identities)

def singleSnapshotBytes : ProofNamespace → List M → Option (List UInt8)
  | .nativeRecovery, messages => nativeRecoverySnapshotBytes h messages
  | .compactedActive, messages => replaySnapshotBytes h true messages
  | .sessionEnd, messages => replaySnapshotBytes h false messages

/-! ## The index of all prefixes -/

/-- The namespaces that the caller asks for. -/
structure Wanted where
  nativeRecovery : Bool
  compactedActive : Bool
  sessionEnd : Bool
deriving DecidableEq, Repr

def Wanted.has (w : Wanted) : ProofNamespace → Bool
  | .nativeRecovery => w.nativeRecovery
  | .compactedActive => w.compactedActive
  | .sessionEnd => w.sessionEnd

/-- The loop's state: the bytes fed to the hash so far, and what the rows so far have shown. -/
structure PrefixState where
  fed : List UInt8
  hasLossyIdentity : Bool
  hasLcmSystemNote : Bool
  hasGeneratedSummary : Bool

def PrefixState.start : PrefixState := ⟨encode "\x7b\"messages\":[".toList, false, false, false⟩

/-- One row of the loop, at position `i`. -/
def PrefixState.feed (w : Wanted) (recent : List Nat) (s : PrefixState) (m : M) (i : Nat) : PrefixState :=
  let anchors := w.compactedActive || w.sessionEnd
  let identity := identityAt h recent m i
  let comma := if 0 < i then encode ",".toList else []
  { fed := s.fed ++ comma ++ encode (Json.dumps Json.compact identity.json)
    hasLossyIdentity := s.hasLossyIdentity || (w.nativeRecovery && hasLossyRedactedIdentity identity)
    hasLcmSystemNote := s.hasLcmSystemNote || (anchors && isLcmSystemNote h m)
    hasGeneratedSummary := s.hasGeneratedSummary || (anchors && isGeneratedSummary h m) }

def PrefixState.eligible (w : Wanted) (s : PrefixState) : ProofNamespace → Bool
  | .nativeRecovery => w.nativeRecovery && !s.hasLossyIdentity
  | .compactedActive => w.compactedActive && s.hasLcmSystemNote && s.hasGeneratedSummary
  | .sessionEnd => w.sessionEnd && s.hasGeneratedSummary

/-- The bytes of a copy of the hash that is closed here. -/
def PrefixState.closed (s : PrefixState) : List UInt8 := s.fed ++ encode "],\"version\":1\x7d".toList

/-- The entries of one namespace that the rest of the loop adds, with their cursors. -/
def prefixEntries (w : Wanted) (recent : List Nat) (ns : ProofNamespace) : PrefixState → Nat →
    List M → List (Nat × List UInt8)
  | _, _, [] => []
  | s, i, m :: rest =>
    let s := s.feed h w recent m i
    let later := prefixEntries w recent ns s (i + 1) rest
    if s.eligible w ns then (i + 1, s.closed) :: later else later

/-- What the entries of `_replay_snapshot_prefix_digests` hash, by cursor. -/
def replaySnapshotPrefixBytes (w : Wanted) (ns : ProofNamespace) (messages : List M) : List (Nat × List UInt8) :=
  prefixEntries h w (salvageProtectedPositions h messages) ns PrefixState.start 0 messages

end

end Reconcile
