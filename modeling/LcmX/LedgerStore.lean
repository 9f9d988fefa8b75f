import LcmX.LedgerTables
import LcmX.Lib.KeyedTable

/-!
# The tables of the ingest ledger

Bindings, stamp observations, emissions, view vectors, lineage marks and metadata,
with the columns of the messages that the ledger joins them with.
-/
namespace IngestLedger

open Classifier (RecordKind)

inductive ObservationKind where
  | altStamp
  | carriedStamp
deriving DecidableEq, Repr

structure ObservationRow where
  lineage : String
  occId : Int
  stamp : String
  kind : ObservationKind
deriving DecidableEq, Repr

structure EmissionRow where
  lineage : String
  viewSeq : Int
  outputIndex : Int
deriving DecidableEq, Repr

/-- A row of `ingest_views`. -/
structure ViewRow where
  lineage : String
  viewSeq : Int
  kind : RecordKind
  state : Option String
  entries : Bytes
  prefixChain : Bytes
deriving DecidableEq, Repr

inductive StampPolicy where
  | normal
  | stampUnreliable
deriving DecidableEq, Repr

structure LineageMark where
  maxStoreId : Option Int := none
  legacyProofDigest : Option Bytes := none
  maxLeafId : Option Int := none
  stampPolicy : StampPolicy := .normal
deriving DecidableEq, Repr

/-- The columns of `messages`; `observedAt` is the stamp text of the column. -/
structure MessageRow where
  sessionId : String
  observedAt : Option String := none
deriving DecidableEq, Repr

structure Ledger where
  bindings : BindingTable
  observations : KeyedRows ObservationRow (Int × ObservationKind × String) fun o => (o.occId, o.kind, o.stamp)
  emissions : KeyedRows EmissionRow (String × Int × Int) fun e => (e.lineage, e.viewSeq, e.outputIndex)
  views : KeyedRows ViewRow (String × RecordKind × Int) fun v => (v.lineage, v.kind, v.viewSeq)
  marks : KeyedTable String LineageMark
  ledgerMeta : KeyedTable String String
  messages : KeyedTable Int MessageRow

/-! ## Reading -/

def digitsValue (l : List Char) : Nat := (l.takeWhile Char.isDigit).foldl (fun n c => n * 10 + (c.toNat - '0'.toNat)) 0

def sqlSpace (c : Char) : Bool := c = ' ' ∨ c = '\t' ∨ c = '\n' ∨ c = '\r' ∨ c.toNat = 11 ∨ c.toNat = 12

/-- `CAST(value AS INTEGER)` of a text: its longest numeric beginning, cut to 64 bits. -/
def castInteger (value : String) : Int :=
  let read : List Char → Int
    | '-' :: rest => -digitsValue rest
    | '+' :: rest => digitsValue rest
    | rest => digitsValue rest
  max (-2 ^ 63) (min (2 ^ 63 - 1) (read (value.toList.dropWhile sqlSpace)))

/-- Nulls come first. -/
def ordinalLe (a b : BindingRow) : Bool :=
  match a.ordinal, b.ordinal with
  | none, _ => true
  | some _, none => false
  | some x, some y => x ≤ y

/-- `SELECT .. WHERE lineage=? AND disposition IN ('stored','migrated','ambiguous') ORDER BY ordinal` -/
def BindingTable.keptRows (t : BindingTable) (lineage : String) : List BindingRow :=
  (t.rows.filter fun r => r.lineage = lineage ∧ r.kept).insertionSort fun a b => ordinalLe a b

end IngestLedger
