import LcmX.LedgerStore

/-!
# The cold cursor

`cold_cursor_candidate`: the newest records of a lineage propose how far a view
was read before, and the bindings prove it row by row. The reads share a budget;
the bindings behind an anchor come in windows of what is left of it.
-/
namespace IngestLedger

open Classifier (RecordKind)

/-! ## Records -/

/-- `newest_view` -/
def newestView (s : Ledger) (lineage : String) (kind : RecordKind) : Option ViewRow :=
  ((s.views.rows.filter fun v => v.lineage = lineage ∧ v.kind = kind).insertionSort
    fun a b => a.viewSeq ≥ b.viewSeq).head?

def persistedLineage (s : Ledger) (sessionId fallback : String) : String :=
  (s.ledgerMeta.get ("session_lineage:" ++ sessionId)).getD fallback

/-- `emission_candidate`: the view when it is usable, and the reason. -/
def emissionCandidate (s : Ledger) (lineage : String) : Option ViewRow × String :=
  match newestView s lineage .emission with
  | none => (none, "none")
  | some view =>
    let recovered := (s.ledgerMeta.get ("emission_recovered:" ++ lineage)).map castInteger
    let floor := (((s.ledgerMeta.get "emission_provenance_floor").map castInteger).or
      ((s.ledgerMeta.get "view_seq").map castInteger)).getD 0
    if view.state ≠ some "proposed" ∧ view.state ≠ some "adopted" then (none, "refused")
    else if recovered.any fun mark => view.viewSeq ≤ mark then (none, "withheld_recovered")
    else if view.viewSeq ≤ floor then (none, "below_floor")
    else (some view, "usable")

/-- Equal digests at the front of two chains, of `n` digests each. -/
def commonDigests : Nat → Bytes → Bytes → Nat
  | 0, _, _ => 0
  | n + 1, a, b => if a.take 16 ≠ b.take 16 then 0 else commonDigests n (a.drop 16) (b.drop 16) + 1

/-- `common_prefix_len` -/
def commonPrefixLen (a b : Bytes) : Except LedgerError Nat :=
  if a.length % 16 ≠ 0 ∨ b.length % 16 ≠ 0 then .error (.format "prefix chains must contain complete digests")
  else .ok (commonDigests (min a.length b.length / 16) a b)

/-- Two known digests that differ. -/
def clash (a b : Option Bytes) : Bool := a.isSome ∧ b.isSome ∧ a ≠ b

/-- The loop of `record_match`, from `m` on. -/
def matchMore (entries old : List ViewEntry) : Nat → Nat → Nat
  | 0, m => m
  | n + 1, m =>
    match entries[m]?, old[m]? with
    | some a, some b =>
      if a.identityDigest ≠ b.identityDigest ∨ clash a.stampDigest b.stampDigest ∨
        clash a.uidsetDigest b.uidsetDigest then m
      else matchMore entries old n (m + 1)
    | _, _ => m

/-- What the caller has read; `stamps` are the stamp texts. -/
structure Attempt where
  entries : List ViewEntry
  stamps : List (Option String)
  lineage : String
  chain : Bytes
deriving DecidableEq, Repr

structure RecordMatch where
  record : ViewRow
  old : List ViewEntry
  size : Nat
  m : Nat
deriving DecidableEq, Repr

inductive ColdError where
  | ledger (error : LedgerError)
  /-- `IndexError` -/
  | index
deriving DecidableEq, Repr

def ofLedger {α : Type} : Except LedgerError α → Except ColdError α
  | .ok a => .ok a
  | .error e => .error (.ledger e)

/-- `record_match` -/
def recordMatch (attempt : Attempt) (record : ViewRow) : Except ColdError RecordMatch := do
  let old ← ofLedger (decodeEntries record.entries)
  let size := min attempt.entries.length old.length
  let m ← ofLedger (commonPrefixLen (attempt.chain.take (16 * size)) (record.prefixChain.take (16 * size)))
  return ⟨record, old, size, matchMore attempt.entries old (size - m) m⟩

/-! ## Bindings -/

/-- A binding with its message, `row_exists`, and the stamps observed for it. -/
structure JoinedRow where
  binding : BindingRow
  message : Option MessageRow
  observations : List String
deriving DecidableEq, Repr

def Ledger.messageOf (s : Ledger) (r : BindingRow) : Option MessageRow := r.storeId.bind s.messages.get

def Ledger.observed (s : Ledger) (r : BindingRow) : List String :=
  (s.observations.rows.filter fun o => o.occId = r.occId).map ObservationRow.stamp

/-- `read_bindings`, on the rows of its statement: what is left of the budget, and the rows with
their stamps when it lasts. -/
def readBindings (s : Ledger) (remaining : Int) (rows : List BindingRow) : Int × List JoinedRow :=
  let left := remaining - rows.length
  (left, rows.map fun r => ⟨r, s.messageOf r, if left ≥ 0 then s.observed r else []⟩)

/-- `.. WHERE b.lineage=? AND b.occ_id=?` -/
def refRows (s : Ledger) (lineage : String) (ref : Int) : List BindingRow :=
  s.bindings.rows.filter fun r => r.lineage = lineage ∧ r.occId = ref

/-- `_COLD_ANCHOR` -/
def anchorRows (s : Ledger) (lineage : String) (digest : Option Bytes) : List BindingRow :=
  s.bindings.rows.filter fun r => r.lineage = lineage ∧ some r.identityDigest = digest

/-- `_COLD_WINDOW` -/
def windowRows (s : Ledger) (lineage : String) (last : Int) : List BindingRow :=
  (s.bindings.keptRows lineage).filter fun r => r.ordinal.any (· > last)

/-- `eligible`: why the row is not. -/
def eligible (sessionId : String) (row : JoinedRow) (entry : ViewEntry) (stamp : Option String)
    (last : Int) : Option String :=
  if row.binding.disposition = .ambiguous then some "ambiguous_disposition"
  else if ¬ (row.binding.disposition = .stored ∨ row.binding.disposition = .migrated) ∨
    row.binding.ordinal.all (· ≤ last) then
    some "not_contiguous"
  else
    match row.message with
    | none => some "missing_row"
    | some message =>
      if message.sessionId ≠ sessionId then some "other_session"
      else if some row.binding.identityDigest ≠ entry.identityDigest then some "not_contiguous"
      else
        match stamp with
        | none => none
        | some stamp =>
          if stamp ∈ row.observations then none
          else if row.binding.stamp.any (· ≠ stamp) then some "stamp"
          else if message.observedAt.any (· ≠ stamp) then some "observed_at"
          else none

/-- The row's own stamp, or equal uid sets on the binding that the record names. -/
def occurrenceEvidence (row : JoinedRow) (entry ref : ViewEntry) (stamp : Option String) : Bool :=
  stamp.any (fun stamp => row.binding.stamp = some stamp ∨ stamp ∈ row.observations) ∨
    entry.uidsetDigest.isSome ∧ entry.uidsetDigest = ref.uidsetDigest ∧ ref.ref = some row.binding.occId

/-! ## The walk -/

/-- The variables of `prove`; `remaining` outlives it. -/
structure Walk where
  k : Nat := 0
  pairs : List (Nat × JoinedRow) := []
  last : Int := 0
  anchor : Bool := true
  window : List JoinedRow := []
  remaining : Int
deriving DecidableEq, Repr

/-- Where a row comes from: the reason to stop, or the row and what is left of the window. -/
inductive Found where
  | stop (reason : String)
  | row (row : JoinedRow) (window : List JoinedRow)
deriving DecidableEq, Repr

section

variable (s : Ledger) (sessionId lineage : String)

/-- The anchor: the binding that the record names, or the only eligible one of the digest. -/
def findAnchor (entry ref : ViewEntry) (stamp : Option String) (w : Walk) : Int × Found :=
  let (remaining, named) :=
    match ref.ref with
    | none => (w.remaining, none)
    | some id =>
      let (remaining, rows) := readBindings s w.remaining ((refRows s lineage id).take 1)
      (remaining, rows.head?.filter fun row => (eligible sessionId row entry stamp w.last).isNone)
  match named with
  | some row => (remaining, .row row [])
  | none =>
    let (remaining, rows) :=
      readBindings s remaining ((anchorRows s lineage entry.identityDigest).take ((max 0 remaining).toNat + 1))
    if remaining < 0 then (remaining, .stop "budget")
    else
      match rows.filter fun row => (eligible sessionId row entry stamp w.last).isNone with
      | [] => (remaining, .stop "no_anchor")
      | [row] => (remaining, .row row [])
      | _ => (remaining, .stop "ambiguous_anchor")

/-- The next kept binding behind the last one, from the window or from a new one. -/
def findNext (entry ref : ViewEntry) (stamp : Option String) (ahead : Nat) (w : Walk) : Int × Found :=
  let (remaining, window) :=
    match w.window with
    | [] => readBindings s w.remaining ((windowRows s lineage w.last).take (min (ahead : Int) w.remaining).toNat)
    | window => (w.remaining, window)
  match window with
  | [] => (remaining, .stop "not_contiguous")
  | row :: window =>
    match eligible sessionId row entry stamp w.last with
    | some reason => (remaining, .stop reason)
    | none =>
      if ref.ref.any (· ≠ row.binding.occId) then (remaining, .stop "not_contiguous")
      else (remaining, .row row window)

/-- One round of the loop of `prove`; with a reason it is the last one. -/
def proveRow (m i : Nat) (entry ref : ViewEntry) (stamp : Option String) (skip : Bool) (w : Walk) :
    Walk × Option String :=
  -- Even exact generated bytes can be a fresh host occurrence.
  if ref.isDescriptor then (w, some "descriptor")
  else if skip then ({ w with k := i + 1 }, none)
  else if w.remaining ≤ 0 ∧ (w.anchor ∨ w.window = []) then (w, some "budget")
  else
    let (remaining, found) :=
      if w.anchor then findAnchor s sessionId lineage entry ref stamp w
      else findNext s sessionId lineage entry ref stamp (m - i) w
    match found with
    | .stop reason => ({ w with remaining := remaining }, some reason)
    | .row row window =>
      if ¬ occurrenceEvidence row entry ref stamp then
        ({ w with remaining := remaining }, some "no_occurrence_evidence")
      else
        -- `eligible` has refused a row without an ordinal.
        ({ k := i + 1
           pairs := w.pairs ++ [(i, row)]
           last := row.binding.ordinal.getD 0
           anchor := false
           window := window
           remaining := remaining }, none)

/-- The loop over the rows of the match from `i` on, `n` of them; the reason to stop comes last. -/
def proveRows (attempt : Attempt) (ignored : List Bool) (r : RecordMatch) : Nat → Nat → Walk →
    Except ColdError (Walk × String)
  | 0, _, w => .ok (w, if r.m < r.size then "record_mismatch" else "length_end")
  | n + 1, i, w =>
    match attempt.entries[i]?, r.old[i]?, attempt.stamps[i]? with
    | some entry, some ref, some stamp =>
      match ref.isDescriptor, ignored[i]? with
      | false, none => .error .index
      | _, skip =>
        match proveRow s sessionId lineage r.m i entry ref stamp (skip.getD false) w with
        | (w, some reason) => .ok (w, reason)
        | (w, none) => proveRows attempt ignored r n (i + 1) w
    | _, _, _ => .error .index

end

/-- What the caller gets; without a record there is no match. -/
structure Candidate where
  k : Nat := 0
  pairs : List (Nat × JoinedRow) := []
  m : Option Nat := none
  kind : Option RecordKind := none
  viewSeq : Option Int := none
deriving DecidableEq, Repr

/-- `prove`, with what is left of the budget and the reason to stop. -/
def prove (s : Ledger) (sessionId lineage : String) (attempt : Attempt) (ignored : List Bool)
    (remaining : Int) (r : RecordMatch) :
    Except ColdError (Candidate × Int × String) := do
  let (w, reason) ← proveRows s sessionId lineage attempt ignored r r.m 0 { remaining := remaining }
  return (⟨w.k, w.pairs, some r.m, some r.record.kind, some r.record.viewSeq⟩, w.remaining, reason)

/-- `runs`, one record after the other; the second list counts the reasons. -/
def proveAll (s : Ledger) (sessionId lineage : String) (attempt : Attempt) (ignored : List Bool) :
    List RecordMatch → Int → Except ColdError (List Candidate × List String)
  | [], _ => .ok ([], [])
  | r :: rest, remaining => do
    let (candidate, remaining, reason) ← prove s sessionId lineage attempt ignored remaining r
    let (candidates, counts) ← proveAll s sessionId lineage attempt ignored rest remaining
    return (candidate :: candidates, ("stop." ++ reason) :: counts)

/-- The budget of all reads. -/
def coldBudget (records : List RecordMatch) : Int := 4 * ((records.map RecordMatch.m).max?.getD 0 : Nat) + 256

/-- The candidate, and the keys that the counter counts. -/
def coldCursorCandidate (s : Ledger) (sessionId : String) (attempt : Attempt) (ignored : List Bool) :
    Except ColdError (Candidate × List String) := do
  let lineage := persistedLineage s sessionId attempt.lineage
  let ingest := newestView s lineage .ingest
  let (emission, reason) := emissionCandidate s lineage
  let withheld := if reason ≠ "usable" then ["emission_withheld." ++ reason] else []
  let unfloored := if reason = "below_floor" ∧ s.ledgerMeta.get "emission_provenance_floor" =
    none then ["emission_no_floor_key"] else []
  let records ← [ingest, emission].reduceOption.mapM (recordMatch attempt)
  let (runs, stops) ← proveAll s sessionId lineage attempt ignored records (coldBudget records)
  -- The first of the longest.
  return ((runs.argmax Candidate.k).getD {}, withheld ++ unfloored ++ stops)

end IngestLedger
