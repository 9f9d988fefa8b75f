import LcmX.ClassifierSnapshot
import LcmX.LedgerOrdinals

/-!
# The state of one pass

`_Pass`: what it reads (`Context`), what it changes (`Pass`), and the small
operations that every phase is made of. The memo tables of the source are left
out; each holds the value of a function of the context.
-/
namespace Classifier

open IngestLedger

inductive Target where
  | occ (id : Int)
  | descriptor (viewSeq outputIndex : Int)
deriving DecidableEq, Repr

inductive Verdict where
  | skip
  | new
  | replay
deriving DecidableEq, Repr

inductive Evidence where
  | runKeyed
  | runUnkeyed
  | rank1
  | rank2
  | rank3
  | rank4
  | aliasForm
deriving DecidableEq, Repr

inductive Reason where
  | vetoUid
  | vetoStamp
  | vetoToolCallId
  | refused
  | revision
  | headH4
  | window
  | order
  | noWitness
  | segment
  | deferred
deriving DecidableEq, Repr

/-- `_REASONS`. -/
def reasons : List Reason :=
  [.vetoUid, .vetoStamp, .vetoToolCallId, .refused, .revision, .headH4, .window, .order, .noWitness]

inductive Shape where
  | partialText
  | rank5
deriving DecidableEq, Repr

inductive RelationKind where
  | possibleReplayOf
  | supersedes
  | generatedUnproven
deriving DecidableEq, Repr

structure Relation where
  kind : RelationKind
  target : Option Target
deriving DecidableEq, Repr

structure RowVerdict where
  verdict : Verdict := .new
  evidence : Option Evidence := none
  target : Option Target := none
  reason : Option Reason := none
  relations : List Relation := []
  deferred : Option Shape := none
deriving DecidableEq, Repr

structure RecordKey where
  kind : RecordKind
  viewSeq : Int
deriving DecidableEq, Repr

structure Run where
  record : RecordKey
  i : Nat
  j : Nat
  k : Nat
deriving DecidableEq, Repr

inductive HeadKind where
  | h1
  | h2
  | h3
  | h4
deriving DecidableEq, Repr

structure Head where
  kind : HeadKind
  ordinal : Option Int
deriving DecidableEq, Repr

inductive Counter where
  | runUnresolvedRef
  | runRevisionCut
  | runVetoUid
  | runNoWitness
  | runSegmentCut
  | headDemoted
  | headH4
  | rowCandidatePairs
  | candidatePairs
  | a5NoTarget
  | m14Rerun
  | queries
deriving DecidableEq, Repr

/-- What a planned entry refers to. -/
inductive Ref where
  | bound (target : Target)
  | newRow (index : Nat)
deriving DecidableEq, Repr

structure PlannedEntry where
  identityDigest : Bytes
  stampDigest : Option Bytes
  uidsetDigest : Option Bytes
  ref : Option Ref
  isDescriptor : Bool := false
deriving DecidableEq, Repr

/-- The store row that a uid intent names. -/
inductive StoreRef where
  | newRow (index : Nat)
  | store (storeId : Option Int)
  | descriptor (target : Target)
deriving DecidableEq, Repr

structure UidIntent where
  row : StoreRef
  uid : String
  kind : UidKind
  proof : String
deriving DecidableEq, Repr

structure WritePlan where
  uidBindings : List UidIntent := []
  altStamps : List (Int × String) := []
  emissionStamps : List (Target × String) := []
  adoptions : List Int := []
  stampUnreliable : Bool := false
  placements : List (Nat × Placement) := []
  entries : List PlannedEntry := []
deriving DecidableEq, Repr

/-- What a pass reads. -/
structure Context where
  helpers : Helpers
  view : List IncomingRow
  snapshot : Snapshot
  oracle : Oracle
  mode : UidMode
  ignoreStamps : Bool

/-- What a pass changes. -/
structure Pass where
  rows : Nat → RowVerdict
  used : List Target := []
  first : Nat → Option Target := fun _ => none
  candidates : Nat → List Target := fun _ => []
  /-- `rejected` and `target_rejections`, which always grow together. -/
  rejections : List (Nat × Target × Reason) := []
  run : Option Run := none
  runRecord : Option ViewRecord := none
  head : Head := ⟨.h4, none⟩
  counts : Counter → Nat := fun _ => 0
  plan : WritePlan := {}

inductive ClassifierError where
  | keyError (occ : Int)
  | typeError
deriving DecidableEq, Repr

namespace Pass

variable (p : Pass)

def count (key : Counter) (n : Nat) : Pass := { p with counts := Function.update p.counts key (p.counts key + n) }

def modifyRow (i : Nat) (f : RowVerdict → RowVerdict) : Pass :=
  { p with rows := Function.update p.rows i (f (p.rows i)) }

/-- `first.setdefault(i, target)`. -/
def setFirst (i : Nat) (target : Target) : Pass :=
  { p with first := Function.update p.first i ((p.first i).or (some target)) }

def remember (i : Nat) (target : Target) : Pass :=
  let p := p.setFirst i target
  if target ∈ p.candidates i then p
  else { p with candidates := Function.update p.candidates i (p.candidates i ++ [target]) }

def reject (i : Nat) (target : Target) (reason : Reason) : Pass :=
  let p := p.remember i target
  { p with rejections := p.rejections ++ [(i, target, reason)] }

/-- `accept`, with whether it did. -/
def accept (i : Nat) (target : Target) (evidence : Option Evidence) : Pass × Bool :=
  if target ∈ p.used then (p, false)
  else
    ({ p with
      rows := Function.update p.rows i { verdict := .replay, evidence := evidence, target := some target }
      used := target :: p.used }, true)

def defer (i : Nat) (shape : Shape) (targets : List Target) : Pass :=
  let p := targets.foldl (fun p t => p.setFirst i t)
    (p.modifyRow i fun v => { v with deferred := some shape, reason := some .deferred })
  match shape with
  | .partialText =>
    p.modifyRow i fun v => { v with relations := targets.map fun t => ⟨.possibleReplayOf, some t⟩ }
  | .rank5 => p

def cut (i : Nat) : Pass :=
  match (p.rows i).verdict, (p.rows i).target with
  | .replay, some target =>
    { p.setFirst i target with
      used := p.used.filter (· ≠ target)
      rows := Function.update p.rows i { reason := some .segment } }
  | _, _ => p

end Pass

namespace Context

variable (c : Context)

/-- `_Pass.__init__`: the verdicts before the first phase. -/
def initial : Pass where
  rows := fun i => { verdict := if c.view[i]?.any IncomingRow.neverStored then .skip else .new }

def previous : Option ViewRecord := c.snapshot.records.find? fun r => r.kind = .ingest

/-- The starts of the tool segments, in view order. -/
def segmentStarts : List Nat := (c.view.filterMap IncomingRow.toolSegment).eraseDups

/-- `segments[start]`. -/
def segment (start : Nat) : List Nat := (c.view.filter fun r => r.toolSegment = some start).map IncomingRow.index

/-- The last user row before the row at `i`. -/
def anchorBefore (i : Nat) : Option Nat :=
  ((c.view.takeWhile fun r => r.index ≠ i).filter fun r => r.role = "user").getLast?.map IncomingRow.index

def ordered : List Binding :=
  (c.snapshot.bindings.filter fun b => b.ordinal.isSome).insertionSort fun a b => a.ordinal.getD 0 ≤ b.ordinal.getD 0

/-- The user binding before the occurrence in ordinal order. -/
def userBefore (occ : Int) : Option Binding :=
  if ∃ b ∈ c.ordered, b.occId = occ then
    ((c.ordered.takeWhile fun b => b.occId ≠ occ).filter fun b => b.role = some "user").getLast?
  else none

def opensSegment (b : Binding) : Bool := b.role = some "assistant" ∧ b.toolCalls ≠ []

/-- The bindings of the session after an assistant with tool calls, up to the next one. -/
def storedSegment (b : Binding) : List Binding :=
  let session := (c.snapshot.bindings.filter fun o => o.sessionId = b.sessionId).insertionSort fun x y =>
    x.ordinal.getD 0 ≤ y.ordinal.getD 0
  if opensSegment b then
    ((session.dropWhile fun o => o.occId ≠ b.occId).drop 1).takeWhile fun o => ¬ opensSegment o
  else []

def ordinal : Option Target → Option Int
  | some (.occ id) => (c.snapshot.binding? id).bind Binding.ordinal
  | _ => none

def knownStamp (row : IncomingRow) : Option String := if c.ignoreStamps then none else row.stamp

/-! ## Uids -/

/-- `uid_rows`: the revisions of a uid. -/
def uidRows (uid : Option String) : List UidBinding :=
  match uid with
  | none => []
  | some uid => c.snapshot.uidBindings.filter fun u => u.uid = uid ∧ u.kind ≠ .constituent

def latest (uid : Option String) : Option UidBinding := (c.uidRows uid).getLast?

def eligible (u : UidBinding) : Bool :=
  ¬ u.disagreeSeen ∧ (u.proofKind = "stored_new" ∨ c.snapshot.byStore u.storeId ≠ [])

def currentUid (row : IncomingRow) (b : Binding) : Bool :=
  c.mode = .on ∧ (c.latest row.uid).any fun u => c.eligible u ∧ b.storeId = some u.storeId

def oldRevision (b : Binding) : Bool :=
  c.mode ≠ .off ∧ ∃ uid ∈ c.snapshot.uids b, ∃ u ∈ c.latest (some uid), some u.storeId ≠ b.storeId

/-- Both sides carry uids and their sets differ. -/
def uidsDisagree (row : IncomingRow) (b : Binding) : Bool :=
  c.mode ≠ .off ∧ truthy row.uid ∧ c.snapshot.uids b ≠ [] ∧
    ¬ sameSet (text row.uid :: row.absorbedUids) (c.snapshot.uids b ++ c.snapshot.constituents b)

/-! ## Agreement of a row and a binding -/

def veto (row : IncomingRow) (b : Binding) : Option Reason :=
  let stamps := c.snapshot.stamps b ++ b.observedAt.toList
  if c.uidsDisagree row b then some .vetoUid
  else if (c.knownStamp row).isSome ∧ stamps ≠ [] ∧ ¬ (∃ s ∈ row.stamp, s ∈ stamps) then some .vetoStamp
  else if row.toolCallId ≠ "" ∧ truthy b.toolCallId ∧ some row.toolCallId ≠ b.toolCallId then some .vetoToolCallId
  else if c.oldRevision b then some .revision
  else none

def positive (row : IncomingRow) (b : Binding) : Bool := ∃ s ∈ c.knownStamp row, s ∈ c.snapshot.stamps b

inductive Match where
  | identity
  | aliasForm
  | name
deriving DecidableEq, Repr

def incomingDigests (row : IncomingRow) : List Bytes :=
  (c.oracle.incomingAliases row.message c.snapshot).map (c.helpers.ledgerDigest c.snapshot.salt) ++ [row.identityDigest]

/-- The digests of the stored aliases, each with whether it needs a witness; the last one of a digest counts. -/
def storedDigests (b : Binding) : List (Bytes × Bool) :=
  (c.oracle.storedAliases b c.snapshot).map fun a => (c.helpers.ledgerDigest c.snapshot.salt a.1, a.2)

def needsWitness (b : Binding) (digest : Bytes) : Bool :=
  ((c.storedDigests b).reverse.find? fun a => a.1 = digest).any Prod.snd

def matchForm (row : IncomingRow) (b : Binding) : Option Match :=
  if row.identityDigest = b.identityDigest then some .identity
  else if b.identityDigest ∈ c.incomingDigests row then some .aliasForm
  else
    let matches_ := (c.incomingDigests row).filter fun d => d ∈ (c.storedDigests b).map Prod.fst
    if matches_ = [] then none
    else if matches_.all (c.needsWitness b) then some .name
    else some .aliasForm

/-! ## Records and emissions -/

def emission (target : Option Target) : Option Emission :=
  match target with
  | some (.descriptor viewSeq outputIndex) =>
    c.snapshot.emissions.find? fun e => e.viewSeq = viewSeq ∧ e.outputIndex = outputIndex
  | _ => none

def entryTarget (entry : ViewEntry) : Option Target :=
  if entry.isDescriptor then
    (c.snapshot.emissions.find? fun e => some e.emissionId = entry.ref).map fun e => .descriptor e.viewSeq e.outputIndex
  else entry.ref.map .occ

/-! ## Window and gaps -/

def window (p : Pass) (b : Binding) : Bool := ∃ head ∈ p.head.ordinal, ∃ o ∈ b.ordinal, head ≤ o

def outsideWindow (p : Pass) : Reason := if p.head.ordinal = none then .headH4 else .window

/-- The replay rows that have an ordinal, in view order. -/
def placed (p : Pass) : List (Nat × Int) :=
  (List.range c.view.length).filterMap fun j =>
    if (p.rows j).verdict = .replay then (c.ordinal (p.rows j).target).map fun o => (j, o) else none

def bounds (p : Pass) (i : Nat) (outside : List Nat) : Option Int × Option Int :=
  ((((c.placed p).filter fun q => q.1 < i ∧ q.1 ∉ outside).getLast?).map Prod.snd,
    (((c.placed p).filter fun q => i < q.1 ∧ q.1 ∉ outside).head?).map Prod.snd)

def position (p : Pass) (i : Nat) (b : Binding) (outside : List Nat) : Option Reason :=
  if ¬ window p b then some (outsideWindow p)
  else
    let (left, right) := c.bounds p i outside
    if ∃ o ∈ b.ordinal, (∃ l ∈ left, o ≤ l) ∨ ∃ r ∈ right, r ≤ o then some .window else none

end Context

/-- `sorted` by a key that may be absent: comparing an absent key fails. -/
def sortedByOrdinal (before : Int → Int → Bool) (l : List Binding) : Except ClassifierError (List Binding) :=
  if 2 ≤ l.length ∧ ∃ b ∈ l, b.ordinal = none then .error .typeError
  else .ok (l.insertionSort fun a b => before (a.ordinal.getD 0) (b.ordinal.getD 0))

end Classifier
