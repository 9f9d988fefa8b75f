import LcmX.ClassifierPass

/-!
# Anchored run, head and strong matches

`run_search`, `choose_head` and `strong` of `_Pass`.
-/
namespace Classifier

open IngestLedger

/-- `max` with a key: the first of the largest. -/
def maxBy {α : Type} (before : α → α → Bool) : List α → Option α
  | [] => none
  | a :: l => some (l.foldl (fun best x => if before best x then x else best) a)

namespace Context

variable (c : Context)

/-! ## The anchored run -/

def entryStampDigest (entry : ViewEntry) : Option Bytes :=
  if entry.isDescriptor then
    (c.emission (c.entryTarget entry)).bind fun e => c.helpers.stampDigest c.snapshot.salt e.observedStamp
  else entry.stampDigest

/-- A row repeats an entry: the same identity, and no known key that disagrees. -/
def repeats (row : IncomingRow) (old : ViewEntry) : Bool :=
  old.identityDigest = some row.identityDigest ∧
    ¬ (c.mode ≠ .off ∧ row.uidsetDigest.isSome ∧ old.uidsetDigest.isSome ∧ row.uidsetDigest ≠ old.uidsetDigest) ∧
      ¬ (¬ c.ignoreStamps ∧ row.stampDigest.isSome ∧ (c.entryStampDigest old).isSome ∧
        row.stampDigest ≠ c.entryStampDigest old)

def runLength : List IncomingRow → List ViewEntry → Nat
  | row :: rows, old :: entries => if c.repeats row old then runLength rows entries + 1 else 0
  | _, _ => 0

structure RunChoice where
  k : Nat
  record : ViewRecord
  j : Nat

/-- `(k, view_seq, -j)` in lexicographic order. -/
def RunChoice.before (a b : RunChoice) : Bool :=
  a.k < b.k ∨ (a.k = b.k ∧ (a.record.viewSeq < b.record.viewSeq ∨ (a.record.viewSeq = b.record.viewSeq ∧ b.j < a.j)))

/-- The runs that start at row `i`. -/
def runsFrom (i : Nat) : List RunChoice :=
  (c.snapshot.records.filter ViewRecord.eligible).flatMap fun record =>
    (List.range record.entries.length).filterMap fun j =>
      let k := c.runLength (c.view.drop i) (record.entries.drop j)
      if 0 < k then some ⟨k, record, j⟩ else none

def starts : List Nat := ((c.view.filter fun r => ¬ r.neverStored).map IncomingRow.index).take 2

/-- The first start that has a run, with its best one. -/
def chooseRun : List Nat → Option (Nat × RunChoice)
  | [] => none
  | i :: rest =>
    match maxBy RunChoice.before (c.runsFrom i) with
    | some choice => some (i, choice)
    | none => chooseRun rest

/-- What keys a row or a binding, when no positive stamp or current uid joins them. -/
def incomingKey (row : IncomingRow) : Bool :=
  (c.knownStamp row).isSome ∨ (c.mode = .on ∧ (c.latest row.uid).any c.eligible)

def storedKey (b : Binding) : Bool :=
  (¬ c.ignoreStamps ∧ c.snapshot.stamps b ≠ []) ∨
    (c.mode = .on ∧ ∃ uid ∈ c.snapshot.uids b, ∃ u ∈ c.uidRows (some uid), b.storeId = some u.storeId ∧ c.eligible u)

/-- One row of the run, and whether the run goes on. -/
def runRow (row : IncomingRow) (entry : ViewEntry) (p : Pass) : Pass × Bool :=
  if row.neverStored then (p, true)
  else
    match c.entryTarget entry with
    | none => (p.count .runUnresolvedRef 1, false)
    | some (.descriptor viewSeq outputIndex) =>
      if (c.emission (some (.descriptor viewSeq outputIndex))).any Emission.eligible then
        ((p.accept row.index (.descriptor viewSeq outputIndex) (some .rank4)).1, true)
      else (p.count .runUnresolvedRef 1, false)
    | some (.occ id) =>
      match c.snapshot.binding? id with
      | none => (p.count .runUnresolvedRef 1, false)
      | some b =>
        if b.role = none ∨ .occ id ∈ p.used then (p.count .runUnresolvedRef 1, false)
        else if c.oldRevision b then ((p.reject row.index (.occ id) .revision).count .runRevisionCut 1, false)
        else if c.uidsDisagree row b then ((p.reject row.index (.occ id) .vetoUid).count .runVetoUid 1, false)
        else if c.positive row b ∨ c.currentUid row b then ((p.accept row.index (.occ id) (some .runKeyed)).1, true)
        else if c.incomingKey row ∨ c.storedKey b then
          ((p.reject row.index (.occ id) .noWitness).count .runNoWitness 1, false)
        else ((p.accept row.index (.occ id) (some .runUnkeyed)).1, true)

/-- The rows of the run up to the first that breaks it, with their number. -/
def runRows : List (IncomingRow × ViewEntry) → Pass → Pass × Nat
  | [], p => (p, 0)
  | (row, entry) :: rest, p =>
    let (p, go) := c.runRow row entry p
    if go then
      let (p, accepted) := runRows rest p
      (p, accepted + 1)
    else (p, 0)

def runSearch (p : Pass) : Pass :=
  match c.chooseRun c.starts with
  | none => p
  | some (i, choice) =>
    let (p, accepted) := c.runRows (((c.view.drop i).zip (choice.record.entries.drop choice.j)).take choice.k) p
    if 0 < accepted then
      { p with
        run := some ⟨⟨choice.record.kind, choice.record.viewSeq⟩, i, choice.j, accepted⟩
        runRecord := some choice.record }
    else p

/-! ## The head -/

/-- The ordinal of the first entry that has one. -/
def firstOrdinal : List ViewEntry → Except ClassifierError (Option Int)
  | [] => .ok none
  | entry :: entries =>
    match c.entryTarget entry with
    | some (.occ id) =>
      match c.snapshot.binding? id with
      | none => .error (.keyError id)
      | some b => if b.ordinal.isSome then .ok b.ordinal else firstOrdinal entries
    | _ => firstOrdinal entries

/-- Rule (h1). -/
def runHead (p : Pass) : Except ClassifierError (Option Head) :=
  match p.run, p.runRecord with
  | some run, some record => do
    match ← c.firstOrdinal (record.entries.drop run.j) with
    | some o => return some ⟨.h1, some o⟩
    | none =>
      return (c.snapshot.emissions.find? fun e =>
        e.viewSeq = run.record.viewSeq ∧ e.nextOccId.any fun id => (c.snapshot.binding? id).isSome).map fun e =>
          ⟨.h1, c.ordinal (e.nextOccId.map .occ)⟩
  | _, _ => return none

/-- The first of the bindings above `last` with the digest. -/
def nextHit (last : Int) (digest : Bytes) : List Binding → Except ClassifierError (Option Binding)
  | [] => .ok none
  | b :: kept =>
    match b.ordinal with
    | none => .error .typeError
    | some o => if last < o ∧ b.identityDigest = digest then .ok (some b) else nextHit last digest kept

def historyHits (kept : List Binding) : Int → List IncomingRow → Except ClassifierError (List Binding)
  | _, [] => .ok []
  | last, row :: rows => do
    match ← nextHit last row.identityDigest (kept.take 8) with
    | none => return []
    | some b => return b :: (← historyHits kept (b.ordinal.getD 0) rows)

/-- Rule (h2). -/
def historyHead (kept : List Binding) (eligible : List IncomingRow) : Except ClassifierError (Option Head) :=
  let m := min 3 kept.length
  if m ≠ 0 ∧ m ≤ eligible.length then do
    let hits ← historyHits kept (-1) (eligible.take m)
    return if hits.length = m then hits.head?.map fun b => ⟨.h2, b.ordinal⟩ else none
  else return none

def keyedHits : List Binding :=
  c.view.filterMap fun row =>
    match c.latest row.uid with
    | some u =>
      if c.eligible u then (c.snapshot.byStore u.storeId).find? fun b => (c.matchForm row b).isSome else none
    | none => none

/-- `any(b["ordinal"] > first for b in ...)`. -/
def anyAbove (first : Option Int) : List Binding → Except ClassifierError Bool
  | [] => .ok false
  | b :: rest =>
    match first, b.ordinal with
    | some x, some y => if x < y then .ok true else anyAbove first rest
    | _, _ => .error .typeError

/-- Rule (h3), only with uid mode `on`. -/
def keyedHead : Except ClassifierError (Option Head) :=
  if c.mode = .on then
    match c.keyedHits with
    | [] => .ok none
    | b :: rest => do return if ← anyAbove b.ordinal rest then some ⟨.h3, b.ordinal⟩ else none
  else .ok none

def chooseHead (p : Pass) : Except ClassifierError Pass := do
  match ← c.runHead p with
  | some head => return { p with head := head }
  | none =>
    let kept ← sortedByOrdinal (· ≤ ·) c.snapshot.keptBindings
    let eligible := c.view.filter fun r => ¬ r.neverStored ∧ ¬ c.oracle.hasGeneratedMarker r.message
    match ← historyHead kept eligible with
    | some head => return { p with head := head }
    | none =>
      match ← c.keyedHead with
      | some head => return { p with head := head }
      | none =>
        let p := if c.mode = .on ∧ c.keyedHits ≠ [] then p.count .headDemoted 1 else p
        let p := if ∃ row ∈ eligible.head?, ∃ b ∈ kept.take 8, b.identityDigest = row.identityDigest then
          p.count .headDemoted 1 else p
        return p.count .headH4 1

/-! ## Uids and emissions -/

/-- `verdict.relations.append(supersedes)` with its reason. -/
def revise (p : Pass) (row : IncomingRow) (rejected latest : Binding) : Pass :=
  (p.reject row.index (.occ rejected.occId) .revision).modifyRow row.index fun v =>
    { v with relations := v.relations ++ [⟨.supersedes, some (.occ latest.occId)⟩], reason := some .revision }

/-- The bindings of every revision of the uid, the largest store id first. -/
def revisions (row : IncomingRow) : List Binding :=
  (((c.uidRows row.uid).map UidBinding.storeId).eraseDups.flatMap c.snapshot.byStore).insertionSort fun a b =>
    b.storeId.getD 0 ≤ a.storeId.getD 0

/-- `content.startswith(old)`, and more. -/
def extends? (content old : String) : Bool := old.isPrefixOf content ∧ content ≠ old

/-- The uid of a row decides it, or `none` when the emissions are next. -/
def strongUid (row : IncomingRow) (p : Pass) : Option Pass :=
  match c.latest row.uid with
  | none => none
  | some u =>
    if c.mode = .off ∨ ¬ truthy row.uid then none
    else
      let newest := (c.revisions row).find? fun b => b.storeId = some u.storeId
      let same := (c.revisions row).find? fun b => (c.matchForm row b).isSome
      match same.or newest with
      | none => none
      | some hit =>
        if ¬ window p hit then some (p.reject row.index (.occ hit.occId) (outsideWindow p))
        else if ¬ c.eligible u then some p
        else
          match same, newest with
          | some b, newest =>
            if ∃ l ∈ newest, b.occId ≠ l.occId then some (revise p row b (newest.getD b))
            else if c.mode = .on ∧ row.absorbedUids.all (· ∈ c.snapshot.constituents b) then
              let (p, accepted) := p.accept row.index (.occ b.occId) (some .rank1)
              if accepted then some p else none
            else none
          | none, some l =>
            if truthy l.content ∧ extends? row.message.text (text l.content) then
              if c.mode = .on then some (p.defer row.index .partialText [.occ l.occId]) else none
            else some (revise p row l l)
          | none, none => none

/-- The first emission at the place and digest of the row that takes it. -/
def strongEmissions (row : IncomingRow) : List Emission → Pass → Pass
  | [], p => p
  | e :: emissions, p =>
    if e.outputIndex ≠ row.index ∨ e.descriptorDigest ≠ row.identityDigest then strongEmissions row emissions p
    else
      let target := Target.descriptor e.viewSeq e.outputIndex
      if ¬ e.eligible then strongEmissions row emissions (p.reject row.index target .refused)
      else if truthy (c.knownStamp row) ∧ truthy e.observedStamp ∧ row.stamp ≠ e.observedStamp then
        strongEmissions row emissions (p.reject row.index target .vetoStamp)
      else
        let (p, accepted) := p.accept row.index target (some .rank4)
        if accepted then p else strongEmissions row emissions p

def undecided (p : Pass) (i : Nat) : Bool :=
  (p.rows i).verdict = .new ∧ (p.rows i).deferred = none ∧ (p.rows i).reason ≠ some .revision

def strongRow (p : Pass) (row : IncomingRow) : Pass :=
  if (p.rows row.index).verdict ≠ .new then p
  else
    match c.strongUid row p with
    | some p => p
    | none => if undecided p row.index then c.strongEmissions row c.snapshot.emissions p else p

def strong (p : Pass) : Pass := c.view.foldl c.strongRow p

end Context

end Classifier
