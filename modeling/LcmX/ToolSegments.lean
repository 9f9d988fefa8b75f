import LcmX.Lib.Tally
import LcmX.ReplayTail

/-!
# Replayed tool segments after the cursor

Past the cursor, an exact copy of a stored call with its results is a replay. The
stored copies are a multiset, and what the messages before the cursor show is
taken from it first. Each replay that is found takes its own copies.

What the engine knows about a single row is a parameter.
-/
namespace Reconcile

/-- What is read of a row, of the host or of the store. The identity is with or without the alias of a pruned tool
row, and the stamp is `_normalize_observed_at` of the row's time. The content of a stored row is its text. -/
structure Readings (α : Type) extends Host α where
  /-- The id of each call, `none` for a call that is no mapping. -/
  toolCalls : α → List (Option String)
  toolCallId : α → String
  matchesIgnoreMessagePatterns : α → Bool
  stamp : α → Option Rat

/-- The output metadata of the durable commit proof, remapped to the messages. -/
structure OutputMetadata where
  uidAt : Nat → Option String
  storedUids : List String
  count : Nat

/-- What the scan asks of the engine, for messages `M` and stored rows `R`. -/
structure SegmentEngine (M R : Type) where
  host : Readings M
  stored : Readings R
  /-- `_host_occurrence_metadata(m)["message_uid"]`. -/
  messageUid : M → Option String
  storeId : R → Int
  isHermesPersistedOutputMarker : String → Bool
  isStoredNonstringContent : String → Bool
  identityAnchorEnabled : Bool
  /-- `none` when there is no proof, or it cannot be loaded. -/
  outputMetadata : Option OutputMetadata

structure SegmentRun (M R : Type) where
  messages : List M
  cursor : Int
  /-- The rows of the session, empty without one. -/
  session : List R
  consumedStoreIds : List Int := []
  /-- The stored rows that the ledger proved for messages before the cursor. -/
  consumedPairs : KeyedTable Nat Int := .empty

namespace Readings

variable {α : Type} (r : Readings α)

def identity (a : α) : ReplayIdentity := r.replayIdentity a true

/-- `allow_pruned_tool_alias=False`. -/
def literal (a : α) : ReplayIdentity := r.replayIdentity a false

def isTool (a : α) : Bool := r.role a = "tool"

def isCall (a : α) : Bool := r.role a = "assistant" ∧ r.toolCalls a ≠ []

def callIds (a : α) : List String := ((r.toolCalls a).filterMap id).filter (· ≠ "")

/-- The rows from a position on, up to the first that is no tool row, with their positions. -/
def resultsFrom (rows : List α) (start : Nat) : List (α × Nat) :=
  (rows.zipIdx.drop start).takeWhile fun p => r.isTool p.1

/-- Each result with the call that it follows, unless the row is skipped or ignored, or its identity is lossy. -/
def ownedPairs (skip : α × Nat → Bool) : Option ReplayIdentity → List (α × Nat) → List (ReplayIdentity × ReplayIdentity)
  | _, [] => []
  | owner, p :: rest =>
    if ¬ r.isTool p.1 then ownedPairs skip (if r.isCall p.1 then some (r.identity p.1) else none) rest
    else
      match owner with
      | none => ownedPairs skip none rest
      | some call =>
        if skip p ∨ r.matchesIgnoreMessagePatterns p.1 ∨
          hasLossyRedactedIdentity (r.identity p.1) then ownedPairs skip owner rest
        else (call, r.identity p.1) :: ownedPairs skip owner rest

end Readings

namespace SegmentRun

variable {M R : Type} (e : SegmentEngine M R) (run : SegmentRun M R)

/-! ## The two sides -/

/-- `get_session_tail`. -/
def tail : List R := lastN (min (max (run.messages.length * 4) 64) run.session.length) run.session

def consumed : List Int := run.consumedStoreIds ++ run.consumedPairs.rows.map Prod.snd

/-- The stored rows that can prove a replay. -/
def storedRows : List R :=
  (run.tail.filter fun row => e.storeId row ∉ run.consumed).filter
    fun row => ¬ e.stored.matchesIgnoreMessagePatterns row

/-- The row of the tail under a store id. -/
def tailById (id : Int) : Option (R × Nat) := run.tail.zipIdx.reverse.find? fun p => e.storeId p.1 = id

/-- The message at `i` is paired with a stored row that is counted and reads the same. -/
def holds (i : Nat) (storeId : Int) : Bool :=
  (i : Int) < run.cursor ∧ ∃ p ∈ run.tailById e storeId, ¬ e.stored.matchesIgnoreMessagePatterns p.1 ∧
    run.messages[i]?.map e.host.identity = some (e.stored.identity p.1)

def held : List Nat := (run.consumedPairs.rows.filter fun p => run.holds e p.1 p.2).map Prod.fst

def prefixRows : List (M × Nat) := run.messages.zipIdx.take run.cursor.toNat

/-- The calls and results before the cursor that no held pair accounts for. -/
def reservedRows : List M :=
  ((run.prefixRows.filter fun p => p.2 ∉ run.held e ∧ (e.host.role p.1 = "assistant" ∨ e.host.role p.1 = "tool") ∧
    ¬ e.host.matchesIgnoreMessagePatterns p.1)).map Prod.fst

def storedIdentities : List ReplayIdentity :=
  ((run.storedRows e).map e.stored.identity).filter fun d => ¬ hasLossyRedactedIdentity d

def reservedIdentities : List ReplayIdentity :=
  ((run.reservedRows e).map e.host.identity).filter fun d => ¬ hasLossyRedactedIdentity d

/-- `stored_identity_counts`, less the prefix. -/
def identityCounts : Tally ReplayIdentity := (Tally.ofList (run.storedIdentities e)).subtract (run.reservedIdentities e)

def storedPairs : List (ReplayIdentity × ReplayIdentity) :=
  e.stored.ownedPairs (fun p => e.storeId p.1 ∈ run.consumed) none run.tail.zipIdx

def reservedPairs : List (ReplayIdentity × ReplayIdentity) :=
  e.host.ownedPairs (fun p => p.2 ∈ run.held e) none run.prefixRows

/-- `owned`. -/
def ownedCounts : Tally (ReplayIdentity × ReplayIdentity) :=
  (Tally.ofList (run.storedPairs e)).subtract (run.reservedPairs e)

/-! ## The results at the cursor -/

/-- The assistant rows that carry one of the ids. -/
def carriers {α : Type} (r : Readings α) (ids : List String) (rows : List α) : Nat :=
  rows.countP fun a => r.role a = "assistant" ∧ ∃ id ∈ r.callIds a, id ∈ ids

/-- The stored copy of the call before the cursor: the row that the ledger bound to it, or its only copy. -/
def callCopy (call : M) (callIndex : Nat) : Option Nat :=
  match run.consumedPairs.get callIndex with
  | some storeId => (run.tailById e storeId).map Prod.snd
  | none =>
    match (run.tail.zipIdx.filter fun p => e.stored.identity p.1 = e.host.identity call).map Prod.snd with
    | [at_] =>
      if carriers e.stored (e.host.callIds call) run.tail = 1 ∧
        carriers e.host (e.host.callIds call) run.messages = 1 then some at_
      else none
    | _ => none

/-- Two stamps that are known and differ. -/
def stampsDiffer (host stored : Option Rat) : Bool := host.isSome ∧ stored.isSome ∧ host ≠ stored

/-- The results that follow the call's copy and were not spent are set aside. -/
def reserveUnspent (following : List R) (spent : List Int) (counts : Tally ReplayIdentity) : Tally ReplayIdentity :=
  following.foldl (fun counts row =>
    if e.storeId row ∈ spent ∨ e.storeId row ∈ run.consumed ∨ e.stored.matchesIgnoreMessagePatterns row then counts
    else if 0 < counts.count (e.stored.identity row) then counts.add (e.stored.identity row) (-1)
    else counts) counts

structure AtCursor (R : Type) where
  /-- The first result of each call id behind the call's copy. -/
  storedResults : KeyedTable String R
  counts : Tally ReplayIdentity
  spent : List Int := []
  replayed : List Nat := []

/-- The stored row is the occurrence of the result. -/
def sameResult (result : M) (row : R) : Bool :=
  e.storeId row ∉ run.consumed ∧ ¬ e.stored.matchesIgnoreMessagePatterns row ∧
    ¬ e.isHermesPersistedOutputMarker (e.host.content result) ∧ ¬ hasLossyRedactedIdentity (e.host.identity result) ∧
      e.stored.literal row = e.host.literal result ∧ ¬ stampsDiffer (e.host.stamp result) (e.stored.stamp row)

/-- One result at the cursor. -/
def resultAtCursor (ids : List String) (s : AtCursor R) (p : M × Nat) : AtCursor R :=
  let id := e.host.toolCallId p.1
  if id ∉ ids then s
  else
    match s.storedResults.get id with
    | none => s
    | some row =>
      let s := { s with storedResults := s.storedResults.delete (· = id) }
      if run.sameResult e p.1 row ∧ 0 < s.counts.count (e.host.identity p.1) then
        { s with
          counts := s.counts.add (e.host.identity p.1) (-1)
          spent := e.storeId row :: s.spent
          replayed := s.replayed ++ [p.2] }
      else s

/-- The results behind the copy of the call, by their call id. -/
def firstResults (following : List R) : KeyedTable String R :=
  following.foldl (fun t row => t.insert (e.stored.toolCallId row) row) .empty

/-- `_replayed_results_at_cursor`, with what it leaves of the counts. -/
def replayedResultsAtCursor (counts : Tally ReplayIdentity) : List Nat × Tally ReplayIdentity :=
  if run.cursor < 1 then ([], counts)
  else
    let callIndex := run.cursor.toNat - 1
    match run.messages[callIndex]? with
    | none => ([], counts)
    | some call =>
      if e.host.role call ≠ "assistant" ∨ e.host.callIds call = [] ∨
        hasLossyRedactedIdentity (e.host.identity call) then ([], counts)
      else
        match (run.callCopy e call callIndex).bind fun at_ => (run.tail[at_]?).map fun row => (at_, row) with
        | none => ([], counts)
        | some (at_, copy) =>
          if e.stored.identity copy ≠ e.host.identity call then ([], counts)
          else
            let following := (run.tail.drop (at_ + 1)).takeWhile e.stored.isTool
            if stampsDiffer (e.host.stamp call) (e.stored.stamp copy) then
              ([], run.reserveUnspent e following [] counts)
            else
              let s := (e.host.resultsFrom run.messages run.cursor.toNat).foldl
                (run.resultAtCursor e (e.host.callIds call))
                { storedResults := firstResults e following, counts := counts }
              (s.replayed, run.reserveUnspent e following s.spent s.counts)

/-! ## Borrowed placeholders -/

/-- A pruned placeholder that has taken the identity of a stored row. -/
def borrows (result : M) : Bool :=
  e.host.content result = hermesPrunedToolPlaceholder ∧ (e.host.identity result).content ≠ hermesPrunedToolPlaceholder

/-- `_HERMES_PRUNE_MIN_CHARS`. -/
def hermesPruneMinChars : Nat := 200

/-- The positions of the user rows with a stamp and a literal identity. -/
def userPositions {α : Type} (r : Readings α) (rows : List α) (stamp : Option Rat)
    (identity : ReplayIdentity) : List Nat :=
  (rows.zipIdx.filter fun p => r.role p.1 = "user" ∧ r.stamp p.1 = stamp ∧ r.literal p.1 = identity).map Prod.snd

/-- `_bound_retry_placeholder_replay`: the pair follows the only occurrence of its stamped user. -/
def boundRetryPlaceholderReplay (call : M) (callIndex : Nat) (result : M) (resultIndex : Nat) : Bool :=
  if ¬ e.identityAnchorEnabled ∨ callIndex = 0 then false
  else
    match run.messages[callIndex - 1]? with
    | none => false
    | some user =>
      if e.host.role user ≠ "user" ∨ e.host.stamp user = none then false
      else
        match userPositions e.stored run.tail (e.host.stamp user) (e.host.literal user) with
        | [j] =>
          if (userPositions e.host run.messages (e.host.stamp user) (e.host.literal user)).length ≠ 1 then false
          else
            match run.tail[j + 1]?, run.tail[j + 2]? with
            | some storedCall, some storedResult =>
              ¬ stampsDiffer (e.host.stamp call) (e.stored.stamp storedCall) ∧
                ¬ stampsDiffer (e.host.stamp result) (e.stored.stamp storedResult) ∧
                e.stored.literal storedCall = e.host.literal call ∧
                (e.stored.literal storedResult = e.host.literal result ∨
                  (resultIndex ∉ salvageProtectedPositions e.host.toHost run.messages ∧
                    e.stored.role storedResult = "tool" ∧
                    e.stored.toolCallId storedResult = e.host.toolCallId result ∧
                    hermesPruneMinChars < (e.stored.content storedResult).length ∧
                    ¬ e.isStoredNonstringContent (e.stored.content storedResult)))
            | _, _ => false
        | _ => false

/-- The user before the call has another uid than the proof says, and the pair has none of its own. -/
def newUser (metadata : OutputMetadata) (call : M) (callIndex : Nat) (result : M) : Bool :=
  match (run.messages[callIndex - 1]?).bind e.messageUid with
  | none => false
  | some uid =>
    let changed : Bool := match metadata.uidAt (callIndex - 1) with
      | some stored => uid ≠ stored
      | none => callIndex - 1 < metadata.count ∧ uid ∉ metadata.storedUids
    changed && (e.messageUid call).isNone && (e.messageUid result).isNone

/-- A borrowed result whose pair is bound. -/
def boundReplay (call : M) (callIndex : Nat) (p : M × Nat) : Bool :=
  borrows e p.1 ∧ run.boundRetryPlaceholderReplay e call callIndex p.1 p.2 ∧
    ∃ metadata ∈ e.outputMetadata, ¬ run.newUser e metadata call callIndex p.1

/-- The uid of a row is absent, or the one that the proof has for it. -/
def uidProven (i : Nat) : Bool :=
  match (run.messages[i]?).bind e.messageUid with
  | none => true
  | some uid =>
    some uid = match (e.outputMetadata.bind fun metadata => metadata.uidAt i).filter (· ≠ "") with
      | some stored => some stored
      | none => if e.outputMetadata.any fun metadata => uid ∈ metadata.storedUids then some uid else none

/-! ## The scan -/

/-- A segment that is replayed: its call and its results. -/
structure ReplayedSegment where
  call : Nat
  results : List Nat
deriving DecidableEq, Repr

structure Scan where
  counts : Tally ReplayIdentity
  owned : Tally (ReplayIdentity × ReplayIdentity)
  segments : List ReplayedSegment := []

/-- The results of a call that a stored copy can prove. -/
def provable (counts : Tally ReplayIdentity) (call : M) (callIndex : Nat) (p : M × Nat) : Bool :=
  e.host.toolCallId p.1 ∈ e.host.callIds call ∧ ¬ e.isHermesPersistedOutputMarker (e.host.content p.1) ∧
    ¬ hasLossyRedactedIdentity (e.host.identity p.1) ∧ counts.contains (e.host.identity p.1) ∧
      (borrows e p.1 → run.boundReplay e call callIndex p)

/-- `result_indexes`: the last provable result of each call id. -/
def resultIndexes (results : List (M × Nat)) : KeyedTable String (M × Nat) :=
  results.foldl (fun t p => t.assign (e.host.toolCallId p.1) p) .empty

def rowIdentity (i : Nat) : Option ReplayIdentity := run.messages[i]?.map e.host.identity

/-- The identities of a call and of a result. -/
def pairAt (call result : Nat) : Option (ReplayIdentity × ReplayIdentity) :=
  (run.rowIdentity e call).bind fun c => (run.rowIdentity e result).map fun d => (c, d)

/-- One row of the scan. -/
def scanRow (s : Scan) (p : M × Nat) : Scan :=
  let (call, index) := p
  let identity := e.host.identity call
  if ¬ e.host.isCall call ∨ hasLossyRedactedIdentity identity then s
  else
    let results := e.host.resultsFrom run.messages (index + 1)
    let provable := results.filter (run.provable e s.counts call index)
    let chosen := resultIndexes e provable
    let needs := identity :: provable.map fun q => e.host.identity q.1
    let pairs := chosen.rows.map fun q => (identity, e.host.identity q.2.1)
    if e.host.callIds call ≠ [] ∧ (e.host.callIds call).all (fun id => (chosen.get id).isSome) ∧
        (results.any (run.boundReplay e call index) → (index :: chosen.rows.map fun q => q.2.2).all (run.uidProven e)) ∧
        s.counts.covers needs ∧ s.owned.covers pairs then
      { counts := s.counts.subtract needs
        owned := s.owned.subtract pairs
        segments := s.segments ++ [⟨index, chosen.rows.map fun q => q.2.2⟩] }
    else s

/-- The results at the cursor, and the segments behind them. The source jumps over the results of a call that it has
looked at; none of them is a call. -/
def replayedSegments : List Nat × List ReplayedSegment :=
  let (atCursor, counts) := run.replayedResultsAtCursor e (run.identityCounts e)
  let s := (run.messages.zipIdx.drop run.cursor.toNat).foldl (run.scanRow e)
    { counts := counts, owned := (run.ownedCounts e).subtract (atCursor.filterMap
      (run.pairAt e (run.cursor.toNat - 1))) }
  (atCursor, s.segments)

/-- `_replayed_tool_segment_indexes_after_cursor`. -/
def replayedToolSegmentIndexesAfterCursor : List Nat :=
  if run.messages.length ≤ run.cursor ∨ run.session = [] then []
  else
    let (atCursor, segments) := run.replayedSegments e
    atCursor ++ segments.flatMap fun g => g.call :: g.results

end SegmentRun

end Reconcile
