import LcmX.LedgerPlan
import LcmX.LedgerStore
import Mathlib

/-!
# Adopting a provisional lineage

`merge_provisional`: every table is re-keyed to the lineage, the moved bindings
are labelled behind the ones that are there, and stored rows that look like one
another are reported as possible replays.
-/
namespace IngestLedger

open Classifier (RecordKind)
open Fallible

attribute [local instance] IngestLedger.lawfulBEq_bytes

/-! ## Possible replays -/

/-- `keyed`: the stamped rows of the target by stamp and digest, in order. -/
def keyedRows (target : List BindingRow) (key : String × Bytes) : List BindingRow :=
  target.filter fun r => r.stamp = some key.1 ∧ r.identityDigest = key.2

/-- The loop over the source rows. A queue holds the rows whose store ids the source queues. -/
def pairRows : List BindingRow → (String × Bytes → List BindingRow) → List (BindingRow × BindingRow)
  | [], _ => []
  | row :: rest, keyed =>
    match row.stamp with
    | none => pairRows rest keyed
    | some stamp =>
      match keyed (stamp, row.identityDigest) with
      | [] => pairRows rest keyed
      | first :: others =>
        if first.storeId ≠ row.storeId then
          (row, first) :: pairRows rest (Function.update keyed (stamp, row.identityDigest) others)
        else pairRows rest keyed

/-! ## Moving the bindings -/

def moveRow (provisional lineage : String) (old : Int) (ordinal : Option Int) (r : BindingRow) : String × Option Int :=
  if r.lineage = provisional ∧ r.ordinal = some old then (lineage, ordinal) else (r.lineage, r.ordinal)

/-- `UPDATE .. SET lineage=?, ordinal=? WHERE lineage=? AND ordinal=?`, one after the other. -/
def moveBindings (provisional lineage : String) (moves : List (Int × Option Int))
    (t : BindingTable) : Except WriteError BindingTable :=
  moves.foldlM (fun t m => t.update (moveRow provisional lineage m.1 m.2)) t

/-- `UPDATE .. SET lineage=? WHERE lineage=?` -/
def rekey (provisional lineage : String) (l : String) : String := if l = provisional then lineage else l

/-! ## Views, marks and metadata -/

/-- `SELECT view_seq .. ORDER BY view_seq DESC LIMIT 2` -/
def newestSeqs (lineage : String) (kind : RecordKind) (rows : List ViewRow) : List Int :=
  (((rows.filter fun v => v.lineage = lineage ∧ v.kind = kind).map ViewRow.viewSeq).insertionSort (· ≥ ·)).take 2

/-- `_prune_views` -/
def pruneViews (lineage : String) (kind : RecordKind)
    (t : KeyedRows ViewRow (String × RecordKind × Int) fun v => (v.lineage, v.kind, v.viewSeq)) :
    KeyedRows ViewRow (String × RecordKind × Int) fun v => (v.lineage, v.kind, v.viewSeq) :=
  t.delete fun v => v.lineage = lineage ∧ v.kind = kind ∧ v.viewSeq ∉ newestSeqs lineage kind t.rows

/-- What stays of the mark of the lineage, given the mark of the provisional one. -/
def LineageMark.adopt (mark excluded : LineageMark) : LineageMark where
  maxStoreId := mark.maxStoreId
  legacyProofDigest := mark.legacyProofDigest.or excluded.legacyProofDigest
  maxLeafId := mark.maxLeafId.or excluded.maxLeafId
  stampPolicy := if mark.stampPolicy = .stampUnreliable ∨
    excluded.stampPolicy = .stampUnreliable then .stampUnreliable else .normal

/-- `INSERT .. SELECT .. ON CONFLICT(lineage) DO UPDATE` and the delete after it. -/
def adoptMark (provisional lineage : String) (marks : KeyedTable String LineageMark) : KeyedTable String LineageMark :=
  let adopted :=
    match marks.get provisional with
    | none => marks
    | some excluded =>
      let fresh : LineageMark := { excluded with maxStoreId := none }
      match marks.get lineage with
      | none => marks.insert lineage fresh
      | some _ => marks.modify lineage fun mark => mark.adopt fresh
  adopted.delete fun l => l = provisional

/-- The mark of recovered emissions is the larger of the two, and the adoption is noted. -/
def adoptMeta (provisional lineage : String) (t : KeyedTable String String) : KeyedTable String String :=
  let own := "emission_recovered:" ++ lineage
  let old := "emission_recovered:" ++ provisional
  let adopted :=
    match t.get old with
    | none => t
    | some excluded =>
      match t.get own with
      | none => t.insert own excluded
      | some value => t.modify own fun _ => toString (max (castInteger value) (castInteger excluded))
  (adopted.delete fun key => key = old).assign ("adopted_from:" ++ provisional) lineage

/-! ## The merge -/

structure MergeResult where
  pairs : List (Option Int × Option Int)
  unstampedSkipped : Nat
  late : Bool
  bindings : Nat
  observations : Nat
  emissions : Nat
  views : Nat
deriving DecidableEq, Repr

def removePrefix (start text : String) : String :=
  if start.toList.isPrefixOf text.toList then String.ofList (text.toList.drop start.toList.length) else text

/-- A kept row of the lineage with a message of the provisional session, stored after the first provisional row. -/
def lateRow (s : Ledger) (provisional lineage : String) : Bool :=
  let first := ((s.bindings.rows.filter fun r => r.lineage = provisional).filterMap BindingRow.storeId).min?
  s.bindings.rows.any fun r =>
    r.lineage = lineage ∧ r.kept ∧
      r.storeId.any fun id =>
        first.any (· < id) ∧ (s.messages.get id).any fun m => m.sessionId = removePrefix "provisional:" provisional

def LedgerError.message : LedgerError → String
  | .ledger message => message
  | .format message => message

/-- The ledger's own error, raised inside a write. -/
def raised {α : Type} : Except LedgerError α → Except WriteError α
  | .ok a => .ok a
  | .error e => .error (.ledger e.message)

def conflicting {α : Type} : Option α → Except WriteError α
  | some a => .ok a
  | none => .error .integrity

def mergeProvisional (owned : Bool) (provisional lineage : String) (s : Ledger) :
    Except WriteError (Ledger × MergeResult) :=
  if ¬ owned then .error (.transaction "ledger write requires store.atomic")
  else do
    let target := s.bindings.keptRows lineage
    let source := s.bindings.keptRows provisional
    let pairs := (pairRows source (keyedRows target)).map fun p => (p.1.storeId, p.2.storeId)
    let skipped := source.countP fun r => r.stamp.isNone ∧ r.identityDigest ∈ target.map BindingRow.identityDigest
    let late := lateRow s provisional lineage
    let olds := sortedLabels (s.bindings.occupied provisional)
    let maximum := (s.bindings.occupied lineage).max?
    let (new, respace) ← raised (planOrdinals maximum.toList (List.replicate olds.length ⟨maximum, none, none⟩))
    if respace ≠ [] then .error (.ledger "signed 64-bit ordinal space exhausted")
    else do
      let moved ← moveBindings provisional lineage (olds.zip new) s.bindings
      let bindings ← moved.update fun r => (rekey provisional lineage r.lineage, r.ordinal)
      let observations ← conflicting
          (s.observations.update fun o => { o with lineage := rekey provisional lineage o.lineage })
      let emissions ← conflicting
          (s.emissions.update fun e => { e with lineage := rekey provisional lineage e.lineage })
      let views ← conflicting (s.views.update fun v => { v with lineage := rekey provisional lineage v.lineage })
      let result : MergeResult :=
        { pairs := pairs
          unstampedSkipped := skipped
          late := late
          bindings := s.bindings.rows.countP fun r => r.lineage = provisional
          observations := s.observations.rows.countP fun o => o.lineage = provisional
          emissions := s.emissions.rows.countP fun e => e.lineage = provisional
          views := s.views.rows.countP fun v => v.lineage = provisional }
      return ({ s with
        bindings := bindings
        observations := observations
        emissions := emissions
        views := pruneViews lineage .emission (pruneViews lineage .ingest views)
        marks := adoptMark provisional lineage s.marks
        ledgerMeta := adoptMeta provisional lineage s.ledgerMeta }, result)

end IngestLedger
