import LcmX.ClassifierSearch
import LcmX.Lib.LongestIncreasing
import Mathlib

/-!
# Weak matches and discovery

`row_candidates`, `weak` and `discovery` of `_Pass`. Candidates become units, and
only the units that every longest increasing sequence contains are accepted.
-/
namespace Classifier

open IngestLedger

attribute [local instance] IngestLedger.lawfulBEq_bytes

/-- A candidate of a row, with the evidence it would be accepted on. -/
structure Candidate where
  binding : Binding
  evidence : Option Evidence
deriving DecidableEq, Repr

/-- What a unit maps each of its rows to; `start` carries its ordinal. -/
structure MatchUnit where
  start : Nat
  ordinal : Int
  mapping : List (Nat × Candidate)
deriving DecidableEq, Repr

namespace Context

variable (c : Context)

/-! ## Candidates -/

/-- `by_role_call`. -/
def byRoleCall (role cid : String) : List Binding :=
  c.snapshot.bindings.filter fun b => b.kept ∧ b.role = some role ∧ text b.toolCallId = cid

/-- The bindings of the row's call that its digests find. -/
def segmentCandidates (row : IncomingRow) : List Binding :=
  let bindings := c.byRoleCall row.role row.toolCallId
  if row.toolSegment = none then []
  else if 1 < bindings.length then
    (c.incomingDigests row).flatMap fun d =>
      bindings.filter fun b => d ∈ (c.storedDigests b).map Prod.fst ∨ d = b.identityDigest
  else bindings.filter fun b => (c.matchForm row b).isSome

def rowCandidates (row : IncomingRow) : Except ClassifierError (List Binding) :=
  let stamped := (c.snapshot.byStamp (c.knownStamp row)).filter fun b => b.role = some row.role
  sortedByOrdinal (fun x y => y ≤ x) (stamped ++ c.segmentCandidates row).eraseDups

/-- Rank 3: the call's user anchor is where the stored user is, and a stamped row meets a stamped binding. -/
def rank3 (p : Pass) (row : IncomingRow) (b : Binding) : Bool :=
  row.toolSegment.isSome ∧
    (∀ anchor ∈ c.anchorBefore row.index,
      (p.rows anchor).verdict = .replay ∧
        ∃ user ∈ c.userBefore b.occId, (p.rows anchor).target = some (.occ user.occId)) ∧
    ¬ (truthy (c.knownStamp row) ∧ c.snapshot.stamps b = [])

/-- One candidate of a row: an option, or a rejection. -/
def weigh (row : IncomingRow) (s : Pass × List Candidate) (b : Binding) : Pass × List Candidate :=
  let (p, options) := s
  let target := Target.occ b.occId
  let form := c.matchForm row b
  let positive := c.positive row b
  if target ∈ p.used then (p, options)
  else if form = none ∧ ¬ positive then (p, options)
  else
    let p := p.remember row.index target
    match c.veto row b with
    | some reason => (p.reject row.index target reason, options)
    | none =>
      if ¬ window p b then (p.reject row.index target (outsideWindow p), options)
      else if form = none then
        if truthy b.content ∧ extends? row.message.text (text b.content) then
          (p.defer row.index .partialText [target], options)
        else (p.reject row.index target .noWitness, options)
      else if form = some .name ∧ ¬ (positive ∨ c.currentUid row b) then
        (p.reject row.index target .noWitness, options)
      else if positive ∨ c.rank3 p row b then
        match c.position p row.index b [] with
        | some reason => (p.reject row.index target reason, options)
        | none =>
          let evidence := if form = some .identity then (if positive then Evidence.rank2 else .rank3) else .aliasForm
          (p, options ++ [⟨b, some evidence⟩])
      else (p.reject row.index target .noWitness, options)

/-- The options of every row of the pass: `options`. -/
def collect (segments : Bool) : List IncomingRow → Pass → Except ClassifierError (Pass × List (Nat × List Candidate))
  | [], p => .ok (p, [])
  | row :: rows, p =>
    if row.toolSegment.isSome ≠ segments ∨ ¬ undecided p row.index then collect segments rows p
    else do
      let candidates ← c.rowCandidates row
      let (p, options) := candidates.foldl (c.weigh row) (p.count .rowCandidatePairs candidates.length, [])
      let (p, rest) ← collect segments rows p
      return (p, (row.index, options) :: rest)

/-- `options[i]`. -/
def optionsAt (options : List (Nat × List Candidate)) (i : Nat) : List Candidate :=
  (options.find? fun o => o.1 = i).elim [] Prod.snd

/-! ## Units -/

/-- What is fixed for a row, else its options. -/
def choices (p : Pass) (options : List (Nat × List Candidate)) (i : Nat) : List Candidate :=
  match (p.rows i).verdict, (p.rows i).target with
  | .replay, some (.occ id) =>
    (c.snapshot.binding? id).toList.map fun b => ⟨b, (p.rows i).evidence⟩
  | _, _ => optionsAt options i

/-- The stored results that answer the rows of a segment, each stored row once. -/
def answers (p : Pass) (options : List (Nat × List Candidate)) (stored : List Binding) :
    List Nat → List Int → Option (List (Nat × Candidate))
  | [], _ => some []
  | i :: rest, answered =>
    let choices := c.choices p options i
    let hit := stored.find? fun b =>
      (choices.any fun o => o.binding = b) ∧ b.toolCallId = (c.view[i]?).map IncomingRow.toolCallId ∧ b.occId ∉ answered
    match hit with
    | none => none
    | some b =>
      (answers p options stored rest (b.occId :: answered)).map fun mapping =>
        (i, (choices.find? fun o => o.binding = b).getD ⟨b, none⟩) :: mapping

def segmentUnits (p : Pass) (options : List (Nat × List Candidate)) (start : Nat) : List MatchUnit :=
  let indexes := c.segment start
  if indexes.length < 2 then []
  else
    (c.choices p options start).filterMap fun assistant => do
      let mapping ← c.answers p options (c.storedSegment assistant.binding) (indexes.drop 1) []
      let ordinal ← assistant.binding.ordinal
      if (c.position p start assistant.binding indexes).isNone then
        some ⟨start, ordinal, (start, assistant) :: mapping⟩
      else none

/-- The rows of the segments that have a result. -/
def segmentMembers : List Nat := (c.segmentStarts.map c.segment).filter (fun l => 2 ≤ l.length) |>.flatten

def units (segments : Bool) (p : Pass) (options : List (Nat × List Candidate)) : List MatchUnit :=
  let members := if segments then c.segmentMembers else []
  (if segments then c.segmentStarts.flatMap (c.segmentUnits p options) else []) ++
    (options.filter fun o => o.1 ∉ members).flatMap fun o =>
      o.2.filterMap fun candidate => candidate.binding.ordinal.map fun ordinal => ⟨o.1, ordinal, [(o.1, candidate)]⟩

def unitKey (u : MatchUnit) : Nat × List (Nat × Int) :=
  (u.start, (u.mapping.map fun m => (m.1, m.2.binding.occId)).insertionSort fun a b => a.1 ≤ b.1)

/-- `unique[key] = unit`. -/
def setUnit (l : List MatchUnit) (u : MatchUnit) : List MatchUnit :=
  if l.any fun v => unitKey v = unitKey u then l.map fun v => if unitKey v = unitKey u then u else v else l ++ [u]

/-- Units are tried by their first row, the larger ordinal first. -/
def unitBefore (u v : MatchUnit) : Prop := u.start < v.start ∨ (u.start = v.start ∧ v.ordinal ≤ u.ordinal)

instance : DecidableRel unitBefore := fun _ _ => inferInstanceAs (Decidable (_ ∨ _))

def sortedUnits (l : List MatchUnit) : List MatchUnit := (l.foldl setUnit []).insertionSort unitBefore

/-- The units with whether each lies in every longest increasing sequence. -/
def judged (units : List MatchUnit) : List (MatchUnit × Bool) :=
  let values := units.map MatchUnit.ordinal
  let f := LongestIncreasing.lengths values
  let g := (LongestIncreasing.lengths (values.reverse.map (-·))).reverse
  let length := f.foldl max 0
  let levels := ((f.zip g).filter fun q => q.1 + q.2 - 1 = length).map Prod.fst
  (units.zip (f.zip g)).map fun q => (q.1, q.2.1 + q.2.2 - 1 = length ∧ levels.count q.2.1 = 1)

def commitRow (accepted : Bool) (p : Pass) (m : Nat × Candidate) : Pass :=
  if (p.rows m.1).verdict = .replay then p
  else if accepted then (p.accept m.1 (.occ m.2.binding.occId) m.2.evidence).1
  else p.reject m.1 (.occ m.2.binding.occId) .order

def commit (p : Pass) (u : MatchUnit × Bool) : Pass := u.1.mapping.foldl (commitRow u.2) p

def weak (segments : Bool) (p : Pass) : Except ClassifierError Pass := do
  let (p, options) ← c.collect segments c.view p
  let units := sortedUnits (c.units segments p options)
  return (judged units).foldl commit (p.count .candidatePairs units.length)

/-! ## Discovery -/

def stripNewlines (l : List Char) : List Char := l.dropWhile (· = '\n')

/-- The digest of the message with other content. -/
def digestWith (row : IncomingRow) (content : List Char) : Option Bytes :=
  some (c.helpers.identityDigest c.snapshot.salt { row.message with content := some (String.ofList content) })

/-- The donor after the descriptor, when it is the rest of the content. -/
def donor (record : ViewRecord) (i : Nat) (rest : List Char) : List Target :=
  match record.entries[i + 1]? with
  | some entry =>
    match entry.isDescriptor, entry.ref with
    | false, some ref =>
      if (c.snapshot.binding? ref).any fun b => b.content = some (String.ofList rest) then [.occ ref] else []
    | _, _ => []
  | none => []

/-- The first cut of the content that has the digest of the descriptor before or after it. -/
def descriptorPart (row : IncomingRow) (record : ViewRecord) (entry : ViewEntry) (target : Target) :
    Option (List Target) :=
  let content := row.message.text.toList
  (List.range' 1 (content.length - 1)).findSome? fun offset =>
    let rest := stripNewlines (content.drop offset)
    if c.digestWith row (stripNewlines (content.take offset).reverse).reverse = entry.identityDigest then
      some (target :: c.donor record row.index rest)
    else if c.digestWith row rest = entry.identityDigest then some [target]
    else none

/-- What one record proposes for the row at its place. -/
def recordPart (row : IncomingRow) (record : ViewRecord) : Option (List Target) :=
  if ¬ record.eligible ∨ (record.kind = .ingest ∧ some record ≠ c.previous) then none
  else
    match record.entries[row.index]? with
    | none => none
    | some entry =>
      match c.entryTarget entry with
      | some (.descriptor viewSeq outputIndex) =>
        let target := Target.descriptor viewSeq outputIndex
        if (c.emission (some target)).any Emission.eligible then c.descriptorPart row record entry target else none
      | some (.occ id) =>
        if (c.snapshot.binding? id).any fun b => truthy b.content ∧ extends? row.message.text (text b.content) then
          some [.occ id]
        else none
      | none => none

def discoverRow (p : Pass) (row : IncomingRow) : Pass :=
  if ¬ undecided p row.index then p
  else
    match c.snapshot.records.findSome? (c.recordPart row) with
    | some targets => p.defer row.index .partialText targets
    | none =>
      let ordered := p.rejections.any fun r => r.1 = row.index ∧ r.2.2 = .order
      match (c.snapshot.byDigest row.identityDigest).reverse.find? fun b =>
        ¬ ordered ∧ .occ b.occId ∉ p.used ∧ (c.position p row.index b []).isNone ∧ (c.veto row b).isNone with
      | some b => p.defer row.index .rank5 [.occ b.occId]
      | none => p

def discovery (p : Pass) : Pass := c.view.foldl c.discoverRow p

end Context

end Classifier
