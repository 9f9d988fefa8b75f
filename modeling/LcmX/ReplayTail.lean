import LcmX.ReplaySnapshot

/-!
# The restart matcher

After a restart the engine has a list of incoming messages and the tail of the
stored session. It looks for the longest prefix of the list that is a replay of
stored rows: each cursor, from the end of the list down, is projected to the
identities of its rows, and one of several kinds of evidence has to accept it.

What the engine knows about a single message, row or identity is a parameter.
-/
namespace Reconcile

open Regex PyText

/-- What the projection of the emission proof says of one position of the list. -/
structure Occurrence where
  /-- The entry is a generated objective. -/
  objective : Bool
  /-- The host merged a row into the emitted one. -/
  mergedComposite : Bool
  /-- `None` for a scaffold row. -/
  identity : Option ReplayIdentity
deriving Repr

/-- What the matcher asks of the engine, for messages `M` and stored rows `R`. -/
structure TailEngine (M R : Type) extends Host M where
  replayOccurrences : List M → Nat → Occurrence
  /-- `_message_replay_identity(m, strip_carrier=False)`. -/
  fullReplayIdentity : M → ReplayIdentity
  /-- `_message_replay_identity(m, stored_row=True)`. -/
  storedReplayIdentity : M → ReplayIdentity
  activeCleanupReplayIdentity : ReplayIdentity → Option ReplayIdentity
  isQuarantinedAssistantReplayIdentity : ReplayIdentity → Bool
  matchesIgnoreMessagePatterns : M → Bool
  /-- The same test with `stored_row=True`. -/
  matchesIgnoreStoredRow : M → Bool
  /-- There are compiled ignore patterns. -/
  hasIgnoreMessagePatterns : Bool
  isVolatileIgnoredQuarantinePlaceholder : M → Bool
  isIgnoredActiveReplayPlaceholder : M → Bool
  isHermesPersistedOutputMarker : String → Bool
  /-- `recover_hermes_persisted_output_with_file_stat` finds the output. -/
  recoversPersistedOutput : String → Bool
  hasInlinePersistedOutputGenerationMetadata : String → Bool
  hasDurablePersistedOutputReplayIdentity : M → Bool
  storedRowHasDurablePersistedOutputMarker : R → Bool
  /-- `extract_externalized_ref` finds a reference. -/
  hasExternalizedRef : String → Bool
  /-- A folded tail overrides some identities. -/
  hasActiveLineage : Bool
  /-- The store ids of some messages in their order, 0 for one that has none. -/
  orderedStoreIds : List M → List Nat
  freshTailCount : Option (List R) → List ReplayIdentity → Nat
  sha256 : List UInt8 → String
  nativeRecoverySnapshotDigests : List String
  engineSnapshotDigests : List String
  sessionEndSnapshotDigests : List String

/-- The stored tail: its identities, and its rows when the caller has them. -/
structure StoredTail (R : Type) where
  identities : List ReplayIdentity
  rows : Option (List R)
  aligned : ∀ l ∈ rows, l.length = identities.length

structure TailReplayRun (M R : Type) where
  messages : List M
  storedTail : StoredTail R
  allowEmptyPrefix : Bool
  rawSessionCount : Nat
  allowSessionEndReplayProof : Bool

/-! ## Matching lists of identities -/

/-- The last `n` elements. -/
def lastN {α : Type} (n : Nat) (l : List α) : List α := l.drop (l.length - n)

/-- Each stored identity is the literal or the active one of its place. -/
def matchesStoreTailSuffix (storedTail candidate literal : List ReplayIdentity) : Bool :=
  candidate = [] ∨ (candidate.length ≤ storedTail.length ∧
    ((lastN candidate.length storedTail).zip ((if literal = [] then candidate else literal).zip candidate)).all
      fun p => p.1 = p.2.1 ∨ p.1 = p.2.2)

def containsIdentityWindow (haystack needle literal : List ReplayIdentity) : Bool :=
  needle ≠ [] ∧ needle.length ≤ haystack.length ∧
    (List.range (haystack.length - needle.length + 1)).any fun start =>
      let window := (haystack.drop start).take needle.length
      if literal = [] ∨ literal = needle then window = needle else matchesStoreTailSuffix window needle literal

/-- `\n?\[LCM persisted-output file generation: size=\d+; mtime_ns=\d+; ctime_ns=\d+\]\n?(?=</persisted-output>)`. -/
def generationRe : Re :=
  .seq (opt (.char (· = '\n'))) (.seq (lit "[LCM persisted-output file generation: size=".toList) (.seq digits
    (.seq (lit "; mtime_ns=".toList) (.seq digits (.seq (lit "; ctime_ns=".toList) (.seq digits (.seq (.char (· = ']'))
      (.seq (opt (.char (· = '\n'))) (.test fun _ ahead => "</persisted-output>".toList.isPrefixOf ahead)))))))))

def stripInlinePersistedOutputGeneration (i : ReplayIdentity) : ReplayIdentity :=
  if i.role ≠ "tool" then i
  else { i with content := String.ofList (sub generationRe (fun _ => ['\n']) i.content.toList) }

def persistedOutputDurableWildcard (i : ReplayIdentity) : ReplayIdentity :=
  { i with content := "[LCM persisted-output durable replay]" }

/-- `_HERMES_PRUNED_TOOL_PLACEHOLDER`. -/
def hermesPrunedToolPlaceholder : String := "[Old tool output cleared to save context space]"

namespace TailReplayRun

variable {M R : Type} (e : TailEngine M R) (run : TailReplayRun M R)

/-! ## The rows and their identities -/

/-- The messages with their positions, which tell equal ones apart. -/
def rows : List (M × Nat) := run.messages.zipIdx

def isScaffold (p : M × Nat) : Bool := (e.replayOccurrences run.messages p.2).identity.isNone

def activeIdentity (p : M × Nat) : ReplayIdentity :=
  let occurrence := e.replayOccurrences run.messages p.2
  match occurrence.identity with
  | some identity => if occurrence.mergedComposite then e.storedReplayIdentity p.1 else identity
  | none => e.fullReplayIdentity p.1

/-- A host row that took the identity of a stored row. -/
def isPrunedSource (p : M × Nat) : Bool :=
  e.role p.1 = "tool" ∧ e.content p.1 = hermesPrunedToolPlaceholder ∧
    (run.activeIdentity e p).content ≠ hermesPrunedToolPlaceholder

def literalIdentity (p : M × Nat) : ReplayIdentity :=
  if run.isPrunedSource e p then e.replayIdentity p.1 false else run.activeIdentity e p

/-- The rows that stand for ignored or quarantined messages. -/
def isGeneratedPlaceholder (p : M × Nat) : Bool :=
  e.isVolatileIgnoredQuarantinePlaceholder p.1 || e.isIgnoredActiveReplayPlaceholder p.1 ||
    (e.hasIgnoreMessagePatterns && e.isQuarantinedAssistantReplayIdentity (run.activeIdentity e p) &&
      e.matchesIgnoreStoredRow p.1)

def isPersistedMarker (p : M × Nat) : Bool := e.role p.1 = "tool" ∧ e.isHermesPersistedOutputMarker (e.content p.1)

/-! ## The durable side -/

def sanitizedReplayTail : List ReplayIdentity := run.storedTail.identities.filterMap e.activeCleanupReplayIdentity

def effectiveSessionCount : Nat := (run.sanitizedReplayTail e).length

def sanitizedTailCollapsed : Bool := (run.sanitizedReplayTail e).length < run.storedTail.identities.length

def storedToolIdentities : List ReplayIdentity :=
  run.storedTail.identities.filter fun i => i.role = "tool" ∧ i.toolCallId ≠ "" ∧ ¬ hasLossyRedactedIdentity i

def durableReplayIdentities : List ReplayIdentity := run.storedTail.identities ++ run.sanitizedReplayTail e

def sessionEndDigests : List String := if run.allowSessionEndReplayProof then e.sessionEndSnapshotDigests else []

/-- The digest of a namespace at a cursor. -/
def prefixDigest (ns : ProofNamespace) (cursor : Nat) : Option String :=
  let wanted := ⟨e.nativeRecoverySnapshotDigests ≠ [], e.engineSnapshotDigests ≠ [], run.sessionEndDigests e ≠ []⟩
  ((replaySnapshotPrefixBytes e.toHost wanted ns run.messages).lookup cursor).map e.sha256

end TailReplayRun

/-! ## One cursor -/

/-- A cursor of a run. -/
structure TailReplayCandidate (M R : Type) where
  run : TailReplayRun M R
  cursor : Nat

namespace TailReplayCandidate

variable {M R : Type} (e : TailEngine M R) (c : TailReplayCandidate M R)

def messages : List (M × Nat) := c.run.rows.take c.cursor

def visibleMessages : List (M × Nat) :=
  c.messages.filter fun p => ¬ c.run.isScaffold e p ∧ ¬ e.matchesIgnoreMessagePatterns p.1

def nonPlaceholderMessages : List (M × Nat) := (c.visibleMessages e).filter fun p => ¬ c.run.isGeneratedPlaceholder e p

def filteredPlaceholders : Bool := (c.nonPlaceholderMessages e).length < (c.visibleMessages e).length

def hasScaffoldEvidence : Bool := c.messages.any (c.run.isScaffold e)

def hasQuarantinedReplayEvidence : Bool :=
  c.messages.any fun p => e.isQuarantinedAssistantReplayIdentity (c.run.activeIdentity e p)

def identityMessages : List (M × Nat) :=
  if c.nonPlaceholderMessages e ≠ [] ∨ c.filteredPlaceholders e then c.nonPlaceholderMessages e else c.visibleMessages e

def visiblePrefix : List ReplayIdentity := (c.visibleMessages e).map (c.run.activeIdentity e)

def candidatePrefix : List ReplayIdentity := (c.identityMessages e).map (c.run.activeIdentity e)

def literalVisiblePrefix : List ReplayIdentity := (c.visibleMessages e).map (c.run.literalIdentity e)

def literalPrefix : List ReplayIdentity := (c.identityMessages e).map (c.run.literalIdentity e)

/-! ### Anchors -/

def matchesSanitizedTail : Bool :=
  (c.candidatePrefix e).length ≤ (c.run.sanitizedReplayTail e).length ∧
    matchesStoreTailSuffix (c.run.sanitizedReplayTail e) (c.candidatePrefix e) (c.literalPrefix e)

def matchesRawTail : Bool :=
  matchesStoreTailSuffix c.run.storedTail.identities (c.candidatePrefix e) (c.literalPrefix e)

def hasRegisteredEngineSnapshot : Bool :=
  (c.run.prefixDigest e .compactedActive c.cursor).any (· ∈ e.engineSnapshotDigests)

def hasOrderedFoldedSnapshotMapping : Bool :=
  let ids := e.orderedStoreIds ((c.identityMessages e).map Prod.fst)
  c.hasRegisteredEngineSnapshot e ∧ e.hasActiveLineage ∧ ids ≠ [] ∧ (∀ id ∈ ids, 0 < id) ∧ ids.IsChain (· < ·)

def hasDurableCompactedSnapshotReplay : Bool :=
  (c.hasRegisteredEngineSnapshot e ∨ (c.run.prefixDigest e .sessionEnd c.cursor).any (· ∈ c.run.sessionEndDigests e)) ∧
    (c.matchesSanitizedTail e ∨ c.matchesRawTail e ∨ c.hasOrderedFoldedSnapshotMapping e)

/-- The places of the tool rows that carry an execution id and are no pruned rows. -/
def toolAnchorIndexes : List Nat :=
  ((c.identityMessages e).zipIdx.filter fun q =>
    (c.run.activeIdentity e q.1).role = "tool" ∧ (c.run.activeIdentity e q.1).toolCallId ≠ "" ∧
      ¬ c.run.isPrunedSource e q.1).map Prod.snd

def hasToolAnchor : Bool := c.toolAnchorIndexes e ≠ []

def hasLossyRedactedReplayIdentity : Bool := (c.candidatePrefix e).any hasLossyRedactedIdentity

def endsWithReplayedToolResult : Bool :=
  match c.toolAnchorIndexes e with
  | [index] =>
    index + 1 = (c.candidatePrefix e).length ∧ ((c.candidatePrefix e)[index]?).all (· ∈ c.run.storedToolIdentities) ∧
      ((c.candidatePrefix e).take index).all fun i =>
        i.role = "assistant" ∧ i.content = "" ∧ i ∈ c.run.durableReplayIdentities e
  | _ => false

def hasUserAfterToolAnchor : Bool :=
  match (c.toolAnchorIndexes e).getLast? with
  | none => false
  | some index => ((c.candidatePrefix e).drop (index + 1)).any fun i => i.role = "user"

def matchesToolAnchoredStaleWindow : Bool :=
  c.hasToolAnchor e ∧ ¬ c.hasUserAfterToolAnchor e ∧
    (containsIdentityWindow (c.run.sanitizedReplayTail e) (c.candidatePrefix e) (c.literalPrefix e) ∨
      containsIdentityWindow c.run.storedTail.identities (c.candidatePrefix e) (c.literalPrefix e))

/-! ### Persisted outputs -/

def hasPersistedMarker : Bool := (c.identityMessages e).any fun p => TailReplayRun.isPersistedMarker e p

def hasUnrecoverablePersistedMarker : Bool :=
  (c.identityMessages e).any fun p => TailReplayRun.isPersistedMarker e p ∧ ¬ e.recoversPersistedOutput (e.content p.1)

/-- One place of `_matches_persisted_output_durable_full_replay`: whether it is a persisted output on both
sides, or on neither. -/
def persistedOutputPlace (p : M × Nat) (row : R) : Option Bool :=
  if TailReplayRun.isPersistedMarker e p ∨ e.storedRowHasDurablePersistedOutputMarker row then
    if TailReplayRun.isPersistedMarker e p ∧ e.storedRowHasDurablePersistedOutputMarker row ∧
        e.hasDurablePersistedOutputReplayIdentity p.1 then some true
    else none
  else some false

def matchesDurablePersistedOutputFullReplay : Bool :=
  match c.run.storedTail.rows with
  | none => false
  | some rows =>
    let places := ((c.identityMessages e).zip rows).map fun q => persistedOutputPlace e q.1 q.2
    let wild := fun (l : List ReplayIdentity) => (l.zip places).map fun q =>
      if q.2 = some true then persistedOutputDurableWildcard q.1 else q.1
    rows ≠ [] ∧ (c.candidatePrefix e).length = c.run.storedTail.identities.length ∧ none ∉ places ∧
      some true ∈ places ∧ wild (c.candidatePrefix e) = wild c.run.storedTail.identities

def matchesInlineGenerationCleanupTail : Bool :=
  c.hasUnrecoverablePersistedMarker e ∧
    matchesStoreTailSuffix ((c.run.sanitizedReplayTail e).map stripInlinePersistedOutputGeneration)
      ((c.candidatePrefix e).map stripInlinePersistedOutputGeneration) []

def rawSuffixNeedsCleanupEquivalence : Bool :=
  c.matchesRawTail e ∧ (lastN (c.candidatePrefix e).length c.run.storedTail.identities).any fun i =>
    e.activeCleanupReplayIdentity i ≠ some i

/-! ### Single rows -/

def hasSystem : Bool := (c.candidatePrefix e).any fun i => i.role = "system"

def droppedQuarantineReplayPlaceholder : Bool := c.messages.any (c.run.isGeneratedPlaceholder e)

def hasQuarantinedSingletonReplay : Bool :=
  c.matchesSanitizedTail e ∧ (c.candidatePrefix e).length = 1 ∧ c.run.effectiveSessionCount e = 1 ∧
    (c.candidatePrefix e).head?.any e.isQuarantinedAssistantReplayIdentity ∧
    (c.run.sanitizedReplayTail e).head?.any e.isQuarantinedAssistantReplayIdentity

def singletonOriginalContent : String :=
  match c.identityMessages e with
  | [p] => e.content p.1
  | _ => ""

def hasExternalizedSingletonReplay : Bool :=
  c.matchesRawTail e ∧ (c.candidatePrefix e).length = 1 ∧ c.run.rawSessionCount = 1 ∧
    e.hasExternalizedRef (c.singletonOriginalContent e) ∧ c.candidatePrefix e = c.run.storedTail.identities

def hasPersistedMarkerSingletonReplay : Bool :=
  c.matchesRawTail e ∧ ¬ c.hasUnrecoverablePersistedMarker e ∧ (c.candidatePrefix e).length = 1 ∧
    c.run.rawSessionCount = 1 ∧
    c.candidatePrefix e = c.run.storedTail.identities ∧ (c.candidatePrefix e).head?.any (fun i => i.role = "tool") ∧
    e.isHermesPersistedOutputMarker (c.singletonOriginalContent e)

def hasDurablePersistedMarkerSuffixReplay : Bool :=
  (c.matchesSanitizedTail e ∨ c.matchesRawTail e) ∧
    c.messages.any fun p => TailReplayRun.isPersistedMarker e p ∧ e.hasDurablePersistedOutputReplayIdentity p.1

def hasFilteredFullReplay : Bool :=
  c.matchesSanitizedTail e ∧ c.droppedQuarantineReplayPlaceholder e ∧
    c.run.effectiveSessionCount e ≤ (c.candidatePrefix e).length ∧ 0 < c.run.effectiveSessionCount e

def hasInlineGenerationCleanupReplay : Bool :=
  c.matchesInlineGenerationCleanupTail e ∧ c.hasUnrecoverablePersistedMarker e ∧
    c.run.effectiveSessionCount e ≤ (c.candidatePrefix e).length ∧ 0 < c.run.effectiveSessionCount e

def hasInlinePersistedGenerationSuffixReplay : Bool :=
  c.matchesSanitizedTail e ∧
    (c.identityMessages e).any fun p =>
      TailReplayRun.isPersistedMarker e p ∧ e.hasInlinePersistedOutputGenerationMetadata (e.content p.1)

/-! ### The evidence of a cursor -/

def hasRawPersistedMarkerExactReplay : Bool :=
  c.hasPersistedMarker e ∧ ¬ c.hasUnrecoverablePersistedMarker e ∧ c.matchesRawTail e ∧
    c.candidatePrefix e = lastN (c.candidatePrefix e).length c.run.storedTail.identities

def hasToolIdAnchoredReplay : Bool :=
  ¬ c.hasPersistedMarker e ∧ c.hasToolAnchor e ∧ ¬ c.hasLossyRedactedReplayIdentity e ∧
    (c.matchesSanitizedTail e ∨ c.matchesRawTail e ∨ c.matchesToolAnchoredStaleWindow e ∨
      c.endsWithReplayedToolResult e)

def hasPersistedMarkerSpecificReplayEvidence : Bool :=
  ¬ c.hasPersistedMarker e ∨ c.hasDurablePersistedMarkerSuffixReplay e ∨ c.matchesDurablePersistedOutputFullReplay e ∨
    c.hasInlineGenerationCleanupReplay e ∨ c.hasInlinePersistedGenerationSuffixReplay e ∨
    c.hasPersistedMarkerSingletonReplay e ∨ c.hasRawPersistedMarkerExactReplay e

def hasEffectiveFullReplay : Bool :=
  c.hasPersistedMarkerSpecificReplayEvidence e ∧ c.matchesSanitizedTail e ∧
    c.run.effectiveSessionCount e ≤ (c.candidatePrefix e).length ∧
    (c.hasSystem e ∨ (1 < c.run.effectiveSessionCount e ∧ ¬ c.run.sanitizedTailCollapsed e) ∨
      c.hasQuarantinedSingletonReplay e ∨ c.hasFilteredFullReplay e)

def hasRawFullReplay : Bool :=
  c.hasPersistedMarkerSpecificReplayEvidence e ∧ c.matchesRawTail e ∧ ¬ c.hasScaffoldEvidence e ∧
    c.run.rawSessionCount ≤ c.messages.length ∧ 1 < c.run.rawSessionCount

def hasScaffoldSuffixReplay : Bool :=
  c.hasPersistedMarkerSpecificReplayEvidence e ∧ c.matchesSanitizedTail e ∧
    (c.messages.any fun p => (e.replayOccurrences c.run.messages p.2).objective) ∧
    ¬ (c.candidatePrefix e).any fun i => i.role = "user"

def hasRawCleanupReplay : Bool :=
  c.hasPersistedMarkerSpecificReplayEvidence e ∧ c.matchesRawTail e ∧ c.hasScaffoldEvidence e ∧
    c.cursor < c.run.messages.length ∧
    max 1 (e.freshTailCount c.run.storedTail.rows c.run.storedTail.identities) ≤ (c.candidatePrefix e).length ∧
    c.rawSuffixNeedsCleanupEquivalence e

/-- The match of the visible rows that is accepted at once. -/
def matchesVisibleTail : Bool :=
  c.filteredPlaceholders e ∧ c.visiblePrefix e ≠ [] ∧
    (((c.visiblePrefix e).length ≤ (c.run.sanitizedReplayTail e).length ∧
        matchesStoreTailSuffix (c.run.sanitizedReplayTail e) (c.visiblePrefix e) (c.literalVisiblePrefix e)) ∨
      matchesStoreTailSuffix c.run.storedTail.identities (c.visiblePrefix e) (c.literalVisiblePrefix e))

def hasReplayEvidence : Bool :=
  c.hasEffectiveFullReplay e ∨ c.hasExternalizedSingletonReplay e ∨ c.hasPersistedMarkerSingletonReplay e ∨
    c.hasDurablePersistedMarkerSuffixReplay e ∨ c.matchesDurablePersistedOutputFullReplay e ∨
    c.hasInlineGenerationCleanupReplay e ∨ c.hasInlinePersistedGenerationSuffixReplay e ∨ c.hasToolIdAnchoredReplay e ∨
    c.hasRawFullReplay e ∨ c.hasScaffoldSuffixReplay e ∨ c.hasRawCleanupReplay e ∨ c.hasDurableCompactedSnapshotReplay e

/-- Some comparison with the stored rows succeeded. -/
def matchesAnything : Bool :=
  c.matchesSanitizedTail e ∨ c.matchesRawTail e ∨ c.endsWithReplayedToolResult e ∨ c.matchesToolAnchoredStaleWindow e ∨
    c.matchesInlineGenerationCleanupTail e ∨ c.matchesDurablePersistedOutputFullReplay e ∨
    c.hasDurableCompactedSnapshotReplay e

inductive Outcome where
  /-- The cursor is returned. -/
  | accepted
  /-- No row of the prefix has an identity; the cursor is kept in reserve. -/
  | reserved
  | rejected
deriving DecidableEq, Repr

def examine : Outcome :=
  if (c.run.prefixDigest e .nativeRecovery c.cursor).any (· ∈ e.nativeRecoverySnapshotDigests) then .accepted
  else if c.candidatePrefix e = [] then
    if c.run.allowEmptyPrefix ∧
        (¬ c.filteredPlaceholders e ∨ c.hasScaffoldEvidence e ∨ c.hasQuarantinedReplayEvidence e) then .accepted
    else .reserved
  else if c.matchesVisibleTail e ∧ ¬ c.hasUnrecoverablePersistedMarker e then .accepted
  else if ¬ c.matchesAnything e ∨ c.hasUnrecoverablePersistedMarker e then .rejected
  else if c.hasReplayEvidence e then .accepted
  else .rejected

end TailReplayCandidate

/-! ## The scan -/

namespace TailReplayRun

variable {M R : Type} (e : TailEngine M R) (run : TailReplayRun M R)

/-- The cursors that are left, with the last one that was reserved. -/
def scan : List Nat → Option Nat → Option Nat
  | [], reserved => if run.allowEmptyPrefix then reserved else none
  | cursor :: cursors, reserved =>
    match TailReplayCandidate.examine e ⟨run, cursor⟩ with
    | .accepted => some cursor
    | .reserved => scan cursors (some cursor)
    | .rejected => scan cursors reserved

/-- The cursors are tried from the end of the list down. -/
def findReconciledCursorForStoreTail : Option Nat := run.scan e (List.range (run.messages.length + 1)).reverse none

end TailReplayRun

end Reconcile
