import LcmX.ClassifierWeak

/-!
# Cuts and the write plan

`finish`, `execute` and `classify`. Incomplete tool segments are cut, the run is
cut where one of them begins, and every row gets its plan.
-/
namespace Classifier

open IngestLedger

attribute [local instance] IngestLedger.lawfulBEq_bytes

namespace Context

variable (c : Context)

/-! ## Cuts -/

/-- Cut a segment unless all its rows are replays. -/
def cutSegment (s : Pass × List Nat) (start : Nat) : Pass × List Nat :=
  if (c.segment start).any fun i => (s.1.rows i).verdict ≠ .replay then
    ((c.segment start).foldl Pass.cut s.1, s.2 ++ [start])
  else s

/-- The cut segments that have a row in the run. -/
def cutInRun (run : Run) (cuts : List Nat) : List Nat :=
  cuts.filter fun start => (c.segment start).any fun i => run.i ≤ i ∧ i < run.i + run.k

def cutRun (p : Pass) (cuts : List Nat) : Pass :=
  match p.run with
  | none => p
  | some run =>
    if (c.cutInRun run cuts).any fun start => start < run.i + run.k then
      let stop := (c.cutInRun run cuts).foldl min (run.i + run.k)
      let p := (List.range' (max stop run.i) (run.i + run.k - max stop run.i)).foldl Pass.cut p
      { p.count .runSegmentCut run.k with
        run := if run.i < stop then some { run with k := stop - run.i } else none }
    else p

def cuts (p : Pass) : Pass :=
  let (p, cuts) := c.segmentStarts.foldl c.cutSegment (p, [])
  c.cutRun p cuts

/-! ## The plan of a row -/

/-- The unclaimed targets of the record by digest: `a5`. -/
def slots (p : Pass) : List (Option Bytes × Option Target) :=
  let record := if p.runRecord.isSome ∧ p.head.kind ≠ .h4 then p.runRecord else c.previous
  (record.elim [] ViewRecord.entries).filterMap fun entry =>
    let target := c.entryTarget entry
    if ∃ t ∈ target, t ∈ p.used then none else some (entry.identityDigest, target)

/-- What the plan of the rows carries along: `offsets` and `bound_uids`. -/
structure Planner where
  pass : Pass
  offsets : Bytes → Nat := fun _ => 0
  boundUids : List String

/-- The first candidate that no row has taken. -/
def refreshFirst (p : Pass) (i : Nat) : Pass :=
  if (p.rows i).deferred = none ∧ ∃ t ∈ p.first i, t ∈ p.used then
    { p with first := Function.update p.first i ((p.candidates i).find? fun t => t ∉ p.used) }
  else p

/-- The slot of the record that a row without a candidate is compared with. -/
def compareSlot (slots : List (Option Bytes × Option Target)) (row : IncomingRow) (s : Planner) : Planner :=
  let targets := (slots.filter fun x => x.1 = some row.identityDigest).map Prod.snd
  if (s.pass.first row.index).isSome ∨ targets = [] then s
  else
    let offset := s.offsets row.identityDigest
    let slot := (targets[min offset (targets.length - 1)]?).join
    let target := slot.or ((c.snapshot.byDigest row.identityDigest).getLast?.map fun b => .occ b.occId)
    let pass := match target with
      | none => s.pass.count .a5NoTarget 1
      | some (.occ id) =>
        match c.snapshot.binding? id with
        | none => s.pass
        | some b =>
          s.pass.reject row.index (.occ id) (((c.veto row b).or (c.position s.pass row.index b [])).getD .noWitness)
      | some (.descriptor viewSeq outputIndex) =>
        s.pass.reject row.index (.descriptor viewSeq outputIndex)
          (if (c.emission (some (.descriptor viewSeq outputIndex))).any Emission.eligible then .noWitness else .refused)
    { s with pass := pass, offsets := Function.update s.offsets row.identityDigest (offset + 1) }

/-- Without a head, the newest occurrence with the digest is named. -/
def nameHeadless (p : Pass) (row : IncomingRow) : Pass :=
  if p.first row.index = none ∧ p.head.kind = .h4 then
    match (c.snapshot.byDigest row.identityDigest).getLast? with
    | some b => p.reject row.index (.occ b.occId) .headH4
    | none => p
  else p

def relate (v : RowVerdict) (target : Target) : RowVerdict :=
  if v.relations.any fun r => r.kind = .possibleReplayOf then v
  else { v with relations := ⟨.possibleReplayOf, some target⟩ :: v.relations }

/-- The first of `_REASONS` among the rejections of the target. -/
def explain (p : Pass) (i : Nat) (target : Target) (v : RowVerdict) : RowVerdict :=
  if v.reason = some .segment ∨ v.reason = some .deferred then v
  else { v with reason := some ((reasons.find? fun r => (i, target, r) ∈ p.rejections).getD .noWitness) }

def isDescriptor : Option Target → Bool
  | some (.descriptor _ _) => true
  | _ => false

def markGenerated (row : IncomingRow) (v : RowVerdict) : RowVerdict :=
  if c.oracle.hasGeneratedMarker row.message ∨ row.identityDigest ∈ c.snapshot.pendingDigests then
    { v with relations := v.relations ++
      [⟨.generatedUnproven, ((v.relations.map Relation.target).find? isDescriptor).join⟩] }
  else v

/-- The relations and the reason of a new row. -/
def annotate (p : Pass) (row : IncomingRow) : Pass :=
  p.modifyRow row.index fun v =>
    c.markGenerated row (match p.first row.index with
      | none => v
      | some target => explain p row.index target (relate v target))

/-- Crossed bounds keep the larger one and leave the end open. -/
def uncross : Option Int × Option Int → Option Int × Option Int
  | (some left, some right) => if left ≥ right then (some (max left right), none) else (some left, some right)
  | bounds => bounds

/-- `left = max(left or 0, previous.left or 0) or None`, and an open end stays open. -/
def clamp (previous : Option Placement) (bounds : Option Int × Option Int) : Option Int × Option Int :=
  match previous with
  | none => bounds
  | some previous =>
    let left := max (bounds.1.getD 0) (previous.left.getD 0)
    (if left = 0 then none else some left,
      match bounds.2, previous.right with
      | some right, some right' => some (max right right')
      | _, _ => none)

/-- The bounds of a new row, clamped to the placement before it. -/
def placement (p : Pass) (row : IncomingRow) : Placement :=
  let bounds := clamp (p.plan.placements.getLast?.map Prod.snd) (uncross (c.bounds p row.index []))
  ⟨bounds.1, bounds.2,
    (((p.rows row.index).relations.find? fun r => r.kind = .supersedes).map fun r => c.ordinal r.target).join⟩

def bindUid (s : Planner) (intent : UidIntent) : Planner :=
  { s with
    pass := { s.pass with plan := { s.pass.plan with uidBindings := s.pass.plan.uidBindings ++ [intent] } }
    boundUids := intent.uid :: s.boundUids }

def planNew (slots : List (Option Bytes × Option Target)) (row : IncomingRow) (s : Planner) : Planner :=
  let s := { s with pass := refreshFirst s.pass row.index }
  let s := c.compareSlot slots row s
  let s := { s with pass := c.annotate (c.nameHeadless s.pass row) row }
  let s := if c.mode ≠ .off ∧ truthy row.uid then
    (if text row.uid ∈ s.boundUids then bindUid s ⟨.newRow row.index, text row.uid, .version, "version_new"⟩
      else bindUid s ⟨.newRow row.index, text row.uid, .canonical, "stored_new"⟩)
    else s
  let placement := c.placement s.pass row
  { s with pass := { s.pass with plan := { s.pass.plan with
    placements := s.pass.plan.placements ++ [(row.index, placement)] } } }

def planDescriptor (row : IncomingRow) (target : Target) (plan : WritePlan) : WritePlan :=
  match c.emission (some target) with
  | none => plan
  | some e =>
    let plan := match row.stamp with
      | some stamp =>
        if e.observedStamp = none then
          { plan with emissionStamps := plan.emissionStamps ++ [(target, stamp)] } else plan
      | none => plan
    if e.state = .proposed ∧ e.viewSeq ∉ plan.adoptions then { plan with adoptions := plan.adoptions ++ [e.viewSeq] }
    else plan

def planStamp (row : IncomingRow) (b : Binding) (evidence : Option Evidence) (plan : WritePlan) : WritePlan :=
  match row.stamp with
  | some stamp =>
    if stamp ∉ c.snapshot.stamps b ∧ evidence ∈ [some .runKeyed, some .runUnkeyed, some .rank1] ∧
        c.snapshot.altStampCount b.occId < 4 then
      { plan with altStamps := plan.altStamps ++ [(b.occId, stamp)] }
    else plan
  | none => plan

def planReplay (row : IncomingRow) (v : RowVerdict) (s : Planner) : Planner :=
  match v.target with
  | some (.descriptor viewSeq outputIndex) =>
    { s with pass := { s.pass with plan := c.planDescriptor row (.descriptor viewSeq outputIndex) s.pass.plan } }
  | some (.occ id) =>
    match c.snapshot.binding? id with
    | none => s
    | some b =>
      let s := { s with pass := { s.pass with plan := c.planStamp row b v.evidence s.pass.plan } }
      if c.mode ≠ .off ∧ truthy row.uid ∧ text row.uid ∉ s.boundUids then
        bindUid s ⟨.store b.storeId, text row.uid, .canonical, "anchor_replay"⟩
      else s
  | none => s

/-- What the entry of a row refers to. -/
def rowRef (row : IncomingRow) (v : RowVerdict) : Option Ref :=
  match v.verdict with
  | .skip => none
  | .new => some (.newRow row.index)
  | .replay => v.target.map .bound

def plannedEntry (row : IncomingRow) (v : RowVerdict) : PlannedEntry :=
  ⟨row.identityDigest, row.stampDigest, row.uidsetDigest, rowRef row v, v.verdict = .replay ∧ isDescriptor v.target⟩

/-- The store row of the constituents of a row. -/
def storeRef (row : IncomingRow) (v : RowVerdict) : StoreRef :=
  match v.verdict, v.target with
  | .replay, some (.occ id) => .store ((c.snapshot.binding? id).bind Binding.storeId)
  | .replay, some target => .descriptor target
  | _, _ => .newRow row.index

def planConstituents (row : IncomingRow) (v : RowVerdict) (plan : WritePlan) : WritePlan :=
  if c.mode ≠ .off then
    { plan with uidBindings := plan.uidBindings ++
      row.absorbedUids.map fun uid => ⟨c.storeRef row v, uid, .constituent, "absorbed"⟩ }
  else plan

def planRow (slots : List (Option Bytes × Option Target)) (s : Planner) (row : IncomingRow) : Planner :=
  let v := s.pass.rows row.index
  let s := match v.verdict with
    | .skip => s
    | .new => c.planNew slots row s
    | .replay => c.planReplay row v s
  let plan := if v.verdict = .skip then s.pass.plan else c.planConstituents row v s.pass.plan
  { s with pass := { s.pass with plan := { plan with entries := plan.entries ++ [plannedEntry row v] } } }

def finish (p : Pass) : Pass :=
  let p := c.cuts p
  (c.view.foldl (c.planRow (c.slots p)) ⟨p, fun _ => 0, c.snapshot.uidBindings.map UidBinding.uid⟩).pass

/-! ## The pass and the classification -/

/-- The phases that decide the rows. -/
def decideRows (p : Pass) : Except ClassifierError Pass := do
  let p ← c.chooseHead (c.runSearch p)
  let p ← c.weak false (c.strong p)
  let p ← c.weak true p
  return c.discovery p

def execute : Except ClassifierError Pass := do return c.finish (← c.decideRows c.initial)

end Context

structure Classification where
  lineage : String
  base : Option RecordKey
  previous : Option RecordKey
  run : Option Run
  head : Head
  unbound : Nat
  counters : Counter → Nat
  rows : List RowVerdict
  writes : WritePlan

/-- The result of a pass. -/
def Context.classification (c : Context) (p : Pass) : Classification where
  lineage := c.snapshot.lineage
  base := p.runRecord.map fun r => ⟨r.kind, r.viewSeq⟩
  previous := c.previous.map fun r => ⟨.ingest, r.viewSeq⟩
  run := p.run
  head := p.head
  unbound := c.snapshot.unbound
  counters := p.counts
  rows := (List.range c.view.length).map p.rows
  writes := p.plan

namespace Context

variable (c : Context)

/-- The targets that prove a restamp of the row. -/
def restamps (row : IncomingRow) : List Target :=
  (match c.latest row.uid with
    | some u =>
      if c.mode = .on ∧ c.eligible u then
        ((c.snapshot.byStore u.storeId).filter fun b =>
          (c.matchForm row b).isSome ∧ truthy row.stamp ∧ c.snapshot.stamps b ≠ [] ∧
            ¬ ∃ s ∈ row.stamp, s ∈ c.snapshot.stamps b).map fun b => Target.occ b.occId
      else []
    | none => []) ++
    (c.snapshot.emissions.filter fun e =>
      e.eligible ∧ e.outputIndex = (row.index : Int) ∧ e.descriptorDigest = row.identityDigest ∧ truthy row.stamp ∧
        truthy e.observedStamp ∧ row.stamp ≠ e.observedStamp).map fun e => .descriptor e.viewSeq e.outputIndex

/-- At least three targets, proven by at least three rows. -/
def restamped : Bool :=
  3 ≤ (c.view.flatMap c.restamps).eraseDups.length ∧ 3 ≤ (c.view.filter fun row => c.restamps row ≠ []).length

end Context

/-- The context of the first pass. -/
def firstContext (helpers : Helpers) (view : List IncomingRow) (snapshot : Snapshot)
    (oracle : Oracle) (mode : UidMode) :
    Context :=
  ⟨helpers, view, snapshot, oracle, mode, snapshot.stampUnreliable⟩

/-- A lineage that is not marked, and whose view proves that its stamps moved, is classified again without stamps. -/
def reruns (helpers : Helpers) (view : List IncomingRow) (snapshot : Snapshot) (oracle : Oracle)
    (mode : UidMode) : Bool :=
  ¬ snapshot.stampUnreliable ∧ (firstContext helpers view snapshot oracle mode).restamped

/-- The context of the pass whose result `classify` returns. -/
def finalContext (helpers : Helpers) (view : List IncomingRow) (snapshot : Snapshot)
    (oracle : Oracle) (mode : UidMode) :
    Context :=
  ⟨helpers, view, snapshot, oracle, mode, snapshot.stampUnreliable || reruns helpers view snapshot oracle mode⟩

/-- `result.counters["queries"] = snapshot.query_count`. -/
def Classification.withQueries (result : Classification) (queries : Nat) : Classification :=
  { result with counters := Function.update result.counters .queries queries }

def classify (helpers : Helpers) (view : List IncomingRow) (snapshot : Snapshot) (oracle : Oracle) (mode : UidMode) :
    Except ClassifierError Classification := do
  let c := firstContext helpers view snapshot oracle mode
  let first ← c.execute
  if reruns helpers view snapshot oracle mode then
    let again := { c with ignoreStamps := true }
    let second ← again.execute
    let result := again.classification second
    return { result with
      writes := { result.writes with stampUnreliable := true }
      counters := Function.update (fun key => second.counts key + first.counts key) .m14Rerun 1
        }.withQueries snapshot.queryCount
  else return (c.classification first).withQueries snapshot.queryCount

end Classifier
