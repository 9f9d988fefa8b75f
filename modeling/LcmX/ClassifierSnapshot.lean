import LcmX.ClassifierView

/-!
# The ledger snapshot

What `SqliteLedgerSnapshot` reads of one lineage, in one transaction. The indexes
by digest, stamp and store are derived from the rows as the constructor derives
them.
-/
namespace Classifier

open IngestLedger

inductive Disposition where
  | stored
  | migrated
  | ambiguous
  | compositePart
  | splitPart
deriving DecidableEq, Repr

/-- A row of `occurrence_bindings` joined with its message; the message columns are null without one.
`observedAt` is the stamp text of `messages.observed_at`. -/
structure Binding where
  occId : Int
  ordinal : Option Int
  storeId : Option Int
  identityDigest : Bytes
  stamp : Option String
  disposition : Disposition
  role : Option String
  content : Option String
  toolCallId : Option String
  toolCalls : List (Option ToolCall)
  toolName : Option String
  observedAt : Option String
  sessionId : Option String
deriving DecidableEq, Repr

/-- Kept bindings count as occurrences of the lineage. -/
def Binding.kept (b : Binding) : Bool :=
  (b.disposition = .stored ∨ b.disposition = .migrated ∨ b.disposition = .ambiguous) ∧ b.role.isSome

inductive RecordKind where
  | ingest
  | emission
deriving DecidableEq, Repr

/-- A view vector; `eligible` is the constructor's verdict on it. -/
structure ViewRecord where
  kind : RecordKind
  viewSeq : Int
  eligible : Bool
  entries : List ViewEntry
deriving DecidableEq, Repr

inductive EmissionState where
  | proposed
  | adopted
  | refused
deriving DecidableEq, Repr

structure Emission where
  emissionId : Int
  viewSeq : Int
  outputIndex : Int
  descriptorDigest : Bytes
  state : EmissionState
  eligible : Bool
  nextOccId : Option Int
  observedStamp : Option String
deriving DecidableEq, Repr

inductive ObservationKind where
  | altStamp
  | carriedStamp
deriving DecidableEq, Repr

structure StampObservation where
  occId : Int
  stamp : String
  kind : ObservationKind
deriving DecidableEq, Repr

/-- A stamp relation of `message_relations`, with the stamp text of its time. -/
structure StampRelation where
  storeId : Int
  observedAt : Option String
deriving DecidableEq, Repr

inductive UidKind where
  | canonical
  | version
  | constituent
deriving DecidableEq, Repr

structure UidBinding where
  uid : String
  storeId : Int
  kind : UidKind
  disagreeSeen : Bool
  proofKind : String
deriving DecidableEq, Repr

/-- The rows of one lineage, with the keys of their tables. -/
structure Snapshot where
  lineage : String
  salt : Bytes
  stampUnreliable : Bool
  records : List ViewRecord
  emissions : List Emission
  emissions_nodup : (emissions.map fun e => (e.viewSeq, e.outputIndex)).Nodup
  bindings : List Binding
  bindings_nodup : (bindings.map Binding.occId).Nodup
  stampObservations : List StampObservation
  stampRelations : List StampRelation
  /-- In the order of their store ids. -/
  uidBindings : List UidBinding
  unbound : Nat
  pendingDigests : List Bytes
  queryCount : Nat

namespace Snapshot

variable (s : Snapshot)

def binding? (occ : Int) : Option Binding := s.bindings.find? fun b => b.occId = occ

/-- `stamps(occ_id)`: the stamp of the binding, its observations and its relations. -/
def stamps (b : Binding) : List String :=
  b.stamp.toList ++ ((s.stampObservations.filter fun o => o.occId = b.occId).map StampObservation.stamp ++
    (s.stampRelations.filter fun r => b.storeId = some r.storeId).filterMap StampRelation.observedAt)

def altStampCount (occ : Int) : Nat := s.stampObservations.countP fun o => o.occId = occ ∧ o.kind = .altStamp

/-- `key=(ordinal, occ_id)`; the sort of the source fails on an absent ordinal among others. -/
def byOrdinalThenId (a b : Binding) : Bool :=
  match a.ordinal, b.ordinal with
  | some x, some y => x < y ∨ (x = y ∧ a.occId ≤ b.occId)
  | none, some _ => true
  | some _, none => false
  | none, none => a.occId ≤ b.occId

def byDigest (digest : Bytes) : List Binding :=
  (s.bindings.filter fun b => b.kept ∧ b.identityDigest = digest).insertionSort fun a b => byOrdinalThenId a b

/-- The keys of `by_digest`, in the order of their first binding. -/
def digests : List Bytes := ((s.bindings.filter Binding.kept).map Binding.identityDigest).eraseDups

/-- All the kept bindings, group by group. -/
def keptBindings : List Binding := s.digests.flatMap s.byDigest

def byStamp (stamp : Option String) : List Binding :=
  match stamp with
  | none => []
  | some stamp => s.keptBindings.filter fun b => stamp ∈ s.stamps b

def byStore (store : Int) : List Binding := s.bindings.filter fun b => b.storeId = some store

def uids (b : Binding) : List String :=
  (s.uidBindings.filter fun u => b.storeId = some u.storeId ∧ u.kind ≠ .constituent).map UidBinding.uid

def constituents (b : Binding) : List String :=
  (s.uidBindings.filter fun u => b.storeId = some u.storeId ∧ u.kind = .constituent).map UidBinding.uid

/-- `ordinals()`. -/
def ordinals : List Int := (s.bindings.filterMap Binding.ordinal).eraseDups.insertionSort (· ≤ ·)

end Snapshot

/-- Equality of Python sets. -/
def sameSet (a b : List String) : Bool := a.all (· ∈ b) && b.all (· ∈ a)

/-- What the identity oracle is asked for. -/
structure Oracle where
  incomingAliases : Message → Snapshot → List Identity
  storedAliases : Binding → Snapshot → List (Identity × Bool)
  hasGeneratedMarker : Message → Bool

end Classifier
