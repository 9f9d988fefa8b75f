import LcmX.ActiveCleanup

/-!
# Mapping active messages to stored rows

The stored rows behind the compaction frontier are matched with the active list in
one pass from left to right. A message is passed over when the list has more
occurrences of its identity than the store; one that stands for an externalized
payload is placed by its own identity, and as late as the messages behind it allow.

A message is an object: it may stand at more than one position of the list, and
the map has one entry for it.
-/
namespace Reconcile

open PyText

structure CandidateRow where
  storeId : Nat
  rawIdentity : ReplayIdentity
  /-- The identity with the override of a host rewrite. -/
  rewritten : Option ReplayIdentity
  placeholderIdentity : List String
deriving DecidableEq, Repr

structure ActiveMessage where
  /-- The raw identity of a message without a store id that names an externalized payload. -/
  placeholder : Option (List String)
  /-- The identity of the whole message, and without its carrier. -/
  fullIdentity : ReplayIdentity
  strippedIdentity : ReplayIdentity
  /-- The identity that a stored row with this message would have. -/
  storedIdentity : ReplayIdentity
  lineage : Option ReplayIdentity
deriving Repr

/-- What a version 4 proof says of an occurrence. -/
structure ProvenOccurrence where
  mergedComposite : Bool
  identity : Option ReplayIdentity
deriving Repr

/-- User content is compared without the white space around it. -/
def proofUserIdentity (identity : ReplayIdentity) : ReplayIdentity :=
  if identity.role ≠ "user" then identity
  else { identity with content := String.ofList (strip identity.content.toList) }

namespace CandidateRow

variable (r : CandidateRow)

def identity : ReplayIdentity := r.rewritten.getD r.rawIdentity

/-- The other form of a row: the stored one of a rewritten row, else the trimmed one. -/
def alt : Option ReplayIdentity :=
  let alt := if r.rawIdentity ≠ r.identity then r.rawIdentity else proofUserIdentity r.rawIdentity
  if alt ≠ r.identity then some alt else none

def cleanup : Option ReplayIdentity := activeCleanupIdentity r.identity

def forms : List ReplayIdentity := r.identity :: r.alt.toList

/-- A row can be the source of a message with an identity. -/
def admits (identity : ReplayIdentity) : Bool :=
  identity ∈ r.forms ∨ ((activeCleanupIdentity identity).isSome ∧ r.cleanup = activeCleanupIdentity identity)

end CandidateRow

/-! ## The stored rows -/

/-- The last row of every store id. -/
def lastOfEachId : List CandidateRow → List CandidateRow
  | [] => []
  | r :: rows => if rows.any (·.storeId = r.storeId) then lastOfEachId rows else r :: lastOfEachId rows

/-- The rows that were loaded, in the order of their store ids. -/
def candidateRows (loaded : List CandidateRow) (excluded : List Nat) : List CandidateRow :=
  (lastOfEachId (loaded.filter fun r => 0 < r.storeId ∧ r.storeId ∉ excluded)).insertionSort
    fun a b => a.storeId ≤ b.storeId

section

variable (rows : List CandidateRow) (data : Nat → ActiveMessage)

def storedForms : List ReplayIdentity := rows.flatMap CandidateRow.forms

/-! ## Live identities -/

/-- The identity of one occurrence; `appended` says which identities the output of the proof holds. -/
def occurrenceIdentity (appended : ReplayIdentity → Bool) (m : Nat) : Option ProvenOccurrence → ReplayIdentity
  | none => (data m).lineage.getD
      (if (data m).fullIdentity ∈ storedForms rows then (data m).fullIdentity else (data m).strippedIdentity)
  | some occurrence =>
    match occurrence.identity with
    | none => (data m).fullIdentity
    | some identity =>
      if occurrence.mergedComposite then
        if (data m).storedIdentity ∉ storedForms rows ∧ identity ∈ storedForms rows then
          if appended identity ∨ appended (proofUserIdentity identity) then identity else (data m).storedIdentity
        else (data m).storedIdentity
      else identity

/-- An object whose occurrences disagree has its full identity. -/
def noteIdentity (live : Nat → Option ReplayIdentity) (m : Nat) (identity : ReplayIdentity) : Nat →
    Option ReplayIdentity :=
  match live m with
  | none => Function.update live m (some identity)
  | some known => if known = identity then live else Function.update live m (some (data m).fullIdentity)

def liveIdentities (messages : List Nat) (appended : ReplayIdentity → Bool)
    (occurrences : Option (List ProvenOccurrence)) :
    Nat → Option ReplayIdentity :=
  let proven := (occurrences.map fun l => l.map some).getD (List.replicate messages.length none)
  (messages.zip proven).foldl
    (fun live p => noteIdentity data live p.1 (occurrenceIdentity rows data appended p.1 p.2)) fun _ => none

def liveIdentity (messages : List Nat) (appended : ReplayIdentity → Bool)
    (occurrences : Option (List ProvenOccurrence)) (m : Nat) :
    ReplayIdentity :=
  (liveIdentities rows data messages appended occurrences m).getD (data m).fullIdentity

end

section

variable (rows : List CandidateRow) (messages : List Nat) (data : Nat → ActiveMessage) (live : Nat → ReplayIdentity)
  (generated : Nat → Bool)

/-! ## Surplus occurrences -/

def storedIdentityCount (identity : ReplayIdentity) : Nat :=
  rows.countP (fun r => r.identity = identity) + rows.countP (fun r => r.alt = some identity)

def storedCleanupCount (cleaned : ReplayIdentity) : Nat := rows.countP fun r => r.cleanup = some cleaned

def storedAvailable (identity : ReplayIdentity) : Nat :=
  max (storedIdentityCount rows identity) ((activeCleanupIdentity identity).elim 0 (storedCleanupCount rows))

def activeIdentityCount (identity : ReplayIdentity) : Nat := messages.countP fun m => live m = identity

/-- How many occurrences of an identity the active list has beyond those that are stored. -/
def surplus (identity : ReplayIdentity) : Nat :=
  activeIdentityCount messages live identity - storedAvailable rows identity

/-- Generated placeholders are surplus first. -/
def generatedSurplusOf (identity : ReplayIdentity) : List Nat :=
  (messages.filter fun m => generated m ∧ live m = identity).take (surplus rows messages live identity)

def isGeneratedSurplus (m : Nat) : Bool := m ∈ generatedSurplusOf rows messages live generated (live m)

def surplusSkips (identity : ReplayIdentity) : Nat :=
  surplus rows messages live identity - (generatedSurplusOf rows messages live generated identity).length

/-! ## Groups of forms that trim alike -/

def groups : List ReplayIdentity := (rows.map fun r => proofUserIdentity r.identity).eraseDups

def groupMembers (group : ReplayIdentity) : List CandidateRow :=
  rows.filter fun r => proofUserIdentity r.identity = group

def groupForms (group : ReplayIdentity) : List ReplayIdentity := (storedForms (groupMembers rows group)).dedup

structure GroupScan where
  skips : ReplayIdentity → Nat
  surplus : Nat
  seen : ReplayIdentity → Nat

def groupScanStep (forms : List ReplayIdentity) (s : GroupScan) (m : Nat) : GroupScan :=
  let seen := Function.update s.seen (live m) (s.seen (live m) + 1)
  if live m ∈ forms ∧ 0 < s.surplus ∧ s.skips (live m) < seen (live m) then
    ⟨Function.update s.skips (live m) (seen (live m)), s.surplus - 1, seen⟩
  else ⟨s.skips, s.surplus, seen⟩

/-- The forms of a row share one occurrence: the earliest active ones beyond the rows of the group are surplus. -/
def groupPass (skips : ReplayIdentity → Nat) (group : ReplayIdentity) : ReplayIdentity → Nat :=
  let forms := groupForms rows group
  let surplus := (forms.map fun f => activeIdentityCount messages live f - skips
    f).sum - (groupMembers rows group).length
  if 0 < surplus ∧ 1 < forms.length then (messages.foldl (groupScanStep live forms) ⟨skips, surplus, fun _ => 0⟩).skips
  else skips

def activeSurplusSkips : ReplayIdentity → Nat :=
  (groups rows).foldl (groupPass rows messages live) (surplusSkips rows messages live generated)

/-! ## Matching -/

/-- The first row from an index on that has a property. -/
def findRow (p : CandidateRow → Bool) (start : Nat) : Option Nat := ((rows.drop start).findIdx? p).map (· + start)

def findRawPlaceholderMatchIndex (raw : List String) (start : Nat) : Option Nat :=
  findRow rows (fun r => r.placeholderIdentity = raw) start

def findMessageMatchIndex (m start : Nat) : Option Nat :=
  (((data m).placeholder.bind fun raw => findRawPlaceholderMatchIndex rows raw start)).or
    (findRow rows (·.admits (live m)) start)

/-- The messages that would be matched from a row on. -/
def matchedRemaining : List Nat → Nat → (ReplayIdentity → Nat) → List Nat
  | [], _, _ => []
  | m :: rest, probe, skips =>
    match (data m).placeholder.bind fun raw => findRawPlaceholderMatchIndex rows raw probe with
    | some i => m :: matchedRemaining rest (i + 1) skips
    | none =>
      if isGeneratedSurplus rows messages live generated m then matchedRemaining rest probe skips
      else if 0 < skips (live m) then matchedRemaining rest probe (Function.update skips (live m) (skips (live m) - 1))
      else
        match findMessageMatchIndex rows data live m probe with
        | some i => m :: matchedRemaining rest (i + 1) skips
        | none => matchedRemaining rest probe skips

/-- The last row with a placeholder's identity that orphans none of the messages behind it. -/
def lastHarmlessMatch (raw : List String) (first : Nat) (rest : List Nat) (skips : ReplayIdentity → Nat) : Option Nat :=
  let baseline := matchedRemaining rows messages data live generated rest (first + 1) skips
  (List.range rows.length).reverse.find? fun i =>
    first ≤ i ∧ (rows[i]?.any fun r => r.placeholderIdentity = raw) ∧
      baseline.all fun m => m ∈ matchedRemaining rows messages data live generated rest (i + 1) skips

structure MapState where
  ids : Nat → Option Nat
  storeIdx : Nat
  skips : ReplayIdentity → Nat

/-- A message gets the store id of a row; the next search starts behind it. -/
def MapState.assign (s : MapState) (m i : Nat) : MapState :=
  { s with ids := Function.update s.ids m (rows[i]?.map CandidateRow.storeId), storeIdx := i + 1 }

/-- A message is passed over for a surplus occurrence of its identity. -/
def MapState.spend (s : MapState) (identity : ReplayIdentity) : MapState :=
  { s with skips := Function.update s.skips identity (s.skips identity - 1) }

def placeholderCount (raw : List String) : Nat := messages.countP fun m => (data m).placeholder = some raw

/-- The row of a placeholder message. -/
def placeholderMatch (s : MapState) (rest : List Nat) (raw : List String) : Option Nat :=
  let first := findRawPlaceholderMatchIndex rows raw s.storeIdx
  if 1 < placeholderCount messages data raw then first
  else first.bind fun i => lastHarmlessMatch rows messages data live generated raw i rest s.skips

/-- A message that is no placed placeholder. -/
def plainStep (s : MapState) (m : Nat) : MapState :=
  if isGeneratedSurplus rows messages live generated m then s
  else if 0 < s.skips (live m) then s.spend (live m)
  else
    match findMessageMatchIndex rows data live m s.storeIdx with
    | some i => s.assign rows m i
    | none => s

def mapStep (s : MapState) (m : Nat) (rest : List Nat) : MapState :=
  match (data m).placeholder with
  | none => plainStep rows messages data live generated s m
  | some raw =>
    let placed := (placeholderMatch rows messages data live generated s rest raw).elim s (s.assign rows m)
    if (placed.ids m).isSome then placed else plainStep rows messages data live generated placed m

def mapMessages : List Nat → MapState → MapState
  | [], s => s
  | m :: rest, s => mapMessages rest (mapStep rows messages data live generated s m rest)

def storeIdsOf : Nat → Option Nat :=
  (mapMessages rows messages data live generated messages
    ⟨fun _ => none, 0, activeSurplusSkips rows messages live generated⟩).ids

end

/-- `_get_store_id_map_for_messages`: the store id of every message that has one, from the rows that were loaded. -/
def storeIdMapForMessages (loaded : List CandidateRow) (excluded : List Nat) (messages : List Nat)
    (data : Nat → ActiveMessage)
    (appended : ReplayIdentity → Bool) (occurrences : Option (List ProvenOccurrence))
    (generated : Nat → Bool) : Nat → Option Nat :=
  let rows := candidateRows loaded excluded
  storeIdsOf rows messages data (liveIdentity rows data messages appended occurrences) generated

end Reconcile
