import LcmX.Lib.Gregorian
import LcmX.Lib.Rounding
import Mathlib.Data.List.Sort
import Mathlib.Data.Rat.Floor

/-!
# The rollup store

Derived summaries of days, weeks and months, the sources they were built from
and the outbox of source mutations. Every operation is one step here, and one
that raises leaves the store as it was. Most are one write transaction; what
comes between the statements of the others is the matter of RollupInterleaving.

Texts of the clock and nonces are arguments. Timestamps are rational seconds.
-/
namespace RollupStore

open Gregorian Rounding

inductive PeriodKind where
  | day
  | week
  | month
  deriving DecidableEq, Repr

inductive Status where
  | building
  | ready
  | stale
  | failed
  deriving DecidableEq, Repr

/-- The text of a period start: the ISO text of a day, or any other text. -/
inductive PeriodStart where
  | iso (day : Int)
  | text (s : String)
  deriving DecidableEq, Repr

/-- `UNIQUE(period_kind, period_start, scope)` -/
structure Key where
  kind : PeriodKind
  start : PeriodStart
  scope : String
  deriving DecidableEq, Repr

structure Row where
  rollupId : Nat
  key : Key
  summary : Option String := none
  tokenCount : Option Int := none
  status : Status
  builtAt : Option String := none
  sourceFingerprint : Option String := none
  error : Option String := none
  generation : Nat := 0
  leaseExpiresAt : Option String := none
  leaseNonce : String := ""
  failedAt : Option String := none
  deriving DecidableEq, Repr

inductive Mutation where
  | insert
  | delete
  | update
  deriving DecidableEq, Repr

/-- A row of the outbox; `nextDay` is set once a pass has stopped inside it. -/
structure Event where
  eventId : Nat
  nodeId : Int
  scope : String
  coveredStart : Rat
  coveredEnd : Rat
  nextDay : Option Int := none
  operation : Mutation
  deriving DecidableEq, Repr

/-- The columns of a summary node that the triggers read. -/
structure Node where
  nodeId : Int
  sessionId : String
  createdAt : Rat
  earliestAt : Option Rat := none
  latestAt : Option Rat := none
  deriving DecidableEq, Repr

structure Store where
  rows : List Row := []
  nextRollupId : Nat := 1
  sources : List (Nat × Int) := []
  invalidations : List Event := []
  nextEventId : Nat := 1
  hasSummaryNodes : Bool := true
  nodes : List Node := []
  deriving DecidableEq, Repr

structure RollupBuildToken where
  rollupId : Nat
  generation : Nat
  nonce : String := ""
  deriving DecidableEq, Repr

/-- What a call returns; `raised` is an exception, after which nothing is kept. -/
inductive Result where
  | token (t : RollupBuildToken)
  | done (success : Bool)
  | count (n : Nat)
  | raised
  deriving DecidableEq, Repr

/-! ## Days and periods -/

/-- `datetime.fromtimestamp(t, tz=utc).date()`: the instant is rounded to whole
microseconds first. `none` is a year outside 1..9999. -/
def fromTimestamp (t : Rat) : Option Int :=
  let day := epochOrdinal + roundHalfEven (t * 1000000) / 1000000 / 86400
  if 1 ≤ day ∧ day ≤ maxOrdinal then some day else none

/-- The instant a day begins. -/
def dayInstant (day : Int) : Rat := (day - epochOrdinal) * 86400

/-- `_period_starts_for_day`, one kind at a time. -/
def periodStart (kind : PeriodKind) (day : Int) : Int :=
  match kind with
  | .day => day
  | .week => weekStart day
  | .month => monthStart day

/-- The first day after the period that starts at `start`. -/
def periodEnd (kind : PeriodKind) (start : Int) : Int :=
  match kind with
  | .day => start + 1
  | .week => start + 7
  | .month => nextMonthStart start

section Operations

-- What `date.fromisoformat` makes of a text that `isoformat` does not write.
variable (readIso : String → Option Int)

/-- `date.fromisoformat` -/
def fromIsoformat : PeriodStart → Option Int
  | .iso day => if 1 ≤ day ∧ day ≤ maxOrdinal then some day else none
  | .text s => readIso s

/-- The window of a row in seconds; `none` where the dates leave the range. -/
def window (key : Key) : Option (Rat × Rat) :=
  match fromIsoformat readIso key.start with
  | none => none
  | some start =>
    if periodEnd key.kind start ≤ maxOrdinal then
      some (dayInstant start, dayInstant (periodEnd key.kind start))
    else none

/-! ## Claims -/

/-- `INSERT .. ON CONFLICT(period_kind, period_start, scope) DO UPDATE` -/
def upsertRow (key : Key) (fresh : Nat → Row) (update : Row → Row) (s : Store) : Store :=
  if s.rows.any (fun r => r.key = key) then
    { s with rows := s.rows.map (fun r => if r.key = key then update r else r) }
  else { s with rows := s.rows ++ [fresh s.nextRollupId], nextRollupId := s.nextRollupId + 1 }

def claimFresh (key : Key) (now deadline nonce : String) (id : Nat) : Row where
  rollupId := id
  key := key
  status := .building
  builtAt := some now
  leaseExpiresAt := some deadline
  leaseNonce := nonce

def claimUpdate (now deadline nonce : String) (row : Row) : Row :=
  { row with
    status := .building
    generation := row.generation + 1
    builtAt := some now
    leaseExpiresAt := some deadline
    leaseNonce := nonce
    failedAt := none
    sourceFingerprint := none
    error := none }

def upsertBuilding (key : Key) (now deadline nonce : String) (s : Store) : Store × Result :=
  let s := upsertRow key (claimFresh key now deadline nonce) (claimUpdate now deadline nonce) s
  match s.rows.find? (fun r => r.key = key) with
  | some row => (s, .token ⟨row.rollupId, row.generation, row.leaseNonce⟩)
  | none => (s, .raised)

/-! ## Terminal calls -/

/-- `rollup_id = ? AND generation = ? AND lease_nonce = ? AND status = 'building'` -/
def RollupBuildToken.owns (token : RollupBuildToken) (row : Row) : Bool :=
  row.rollupId = token.rollupId && row.generation = token.generation &&
    row.leaseNonce = token.nonce && row.status = .building

/-- `UPDATE lcm_rollups SET .. WHERE` the token owns the row. -/
def updateOwned (token : RollupBuildToken) (update : Row → Row) (s : Store) : Store :=
  { s with rows := s.rows.map (fun r => if token.owns r then update r else r) }

def demote (reason : String) (row : Row) : Row :=
  { row with
    status := .stale
    generation := row.generation + 1
    error := some reason
    leaseExpiresAt := none
    leaseNonce := "" }

def publish (summary : String) (tokenCount : Int) (fingerprint now : String) (row : Row) : Row :=
  { row with
    summary := some summary
    tokenCount := some tokenCount
    status := .ready
    builtAt := some now
    sourceFingerprint := some fingerprint
    error := none
    failedAt := none
    leaseExpiresAt := none
    leaseNonce := "" }

/-- An outbox event of the row's scope whose bounds meet the window. -/
def pendingMutation (scope : String) (bounds : Rat × Rat) (s : Store) : Bool :=
  s.invalidations.any (fun e => e.scope = scope && e.coveredStart < bounds.2 && bounds.1 ≤ e.coveredEnd)

def missingSource (sourceIds : List Int) (s : Store) : Bool :=
  sourceIds ≠ [] && s.hasSummaryNodes && sourceIds.any (fun id => !s.nodes.any (fun n => n.nodeId = id))

def replaceSources (rollupId : Nat) (sourceIds : List Int) (s : Store) : Store :=
  { s with sources := s.sources.filter (fun x => x.1 ≠ rollupId) ++ sourceIds.map (fun id => (rollupId, id)) }

/-- `mark_ready`: publish iff the token still owns the row, no mutation of its
window is pending and every proposed source exists. -/
def markReady (token : RollupBuildToken) (summary : String) (tokenCount : Int) (sourceNodeIds : List Int)
    (fingerprint now : String) (s : Store) : Store × Result :=
  let unique := sourceNodeIds.eraseDups
  match s.rows.find? token.owns with
  | none => if s.rows.any (fun r => r.rollupId = token.rollupId) then (s, .done false) else (s, .raised)
  | some owned =>
    match window readIso owned.key with
    | none => (s, .raised)
    | some bounds =>
      if pendingMutation owned.key.scope bounds s then
        (updateOwned token (demote "source mutation pending") s, .done false)
      else if missingSource unique s then
        (updateOwned token (demote "source changed during build") s, .done false)
      else
        (replaceSources token.rollupId unique
          (updateOwned token (publish summary tokenCount fingerprint now) s), .done true)

/-- The terminal calls that update the owned row and nothing else. -/
def releaseOwned (token : RollupBuildToken) (update : Row → Row) (s : Store) : Store × Result :=
  (updateOwned token update s, .done (s.rows.any token.owns))

def markFailed (token : RollupBuildToken) (error now : String) : Store → Store × Result :=
  releaseOwned token (fun row =>
    { row with
      status := .failed
      error := some error
      failedAt := some now
      leaseExpiresAt := none
      leaseNonce := "" })

/-- The generation stays: a deferral is not an input change. -/
def deferIncomplete (token : RollupBuildToken) (reason : String) : Store → Store × Result :=
  releaseOwned token (fun row =>
    { row with
      status := .stale
      error := some reason
      leaseExpiresAt := none
      leaseNonce := "" })

/-- Delete the owned row and its sources. -/
def resolveNoSource (token : RollupBuildToken) (s : Store) : Store × Result :=
  if s.rows.any token.owns then
    ({ s with
        rows := s.rows.filter (fun r => !token.owns r)
        sources := s.sources.filter (fun x => x.1 ≠ token.rollupId) }, .done true)
  else (s, .done false)

/-! ## Invalidation -/

def seeded (key : Key) (id : Nat) : Row where
  rollupId := id
  key := key
  status := .stale

def stale (row : Row) : Row :=
  { row with
    status := .stale
    generation := row.generation + 1
    leaseExpiresAt := none
    leaseNonce := "" }

def staleKey (key : Key) : Store → Store := upsertRow key (seeded key) stale

/-- A row that is being built is left alone. -/
def seedKey (key : Key) : Store → Store :=
  upsertRow key (seeded key) (fun r => if r.status = .building then r else stale r)

def staleKeys (keys : List Key) (s : Store) : Store := keys.foldl (fun s key => staleKey key s) s

def periodKey (kind : PeriodKind) (day : Int) (scope : String) : Key := ⟨kind, .iso (periodStart kind day), scope⟩

def aggregateKeys (day : Int) (scope : String) : List Key := [periodKey .week day scope, periodKey .month day scope]

def dayKeys (day : Int) (scope : String) : List Key := periodKey .day day scope :: aggregateKeys day scope

def markStaleForDay (day : PeriodStart) (scope : String) (s : Store) : Store × Result :=
  match fromIsoformat readIso day with
  | none => (s, .raised)
  | some day => (staleKeys (dayKeys day scope) s, .count 3)

def staleAggregatesForDay (day : PeriodStart) (scope : String) (s : Store) : Store × Result :=
  match fromIsoformat readIso day with
  | none => (s, .raised)
  | some day => (staleKeys (aggregateKeys day scope) s, .count 2)

/-- A day target brings its week and its month. -/
def expandTarget (target : Key) : Option (List Key) :=
  match target.kind with
  | .day => (fromIsoformat readIso target.start).map (fun day => target :: aggregateKeys day target.scope)
  | _ => some [target]

def expandStaleTargets (targets : List Key) : Option (List Key) :=
  (targets.mapM (expandTarget readIso)).map (fun l => l.flatten.eraseDups)

/-- `upsert_stale_many`; `upsert_stale` is the call with one target. -/
def upsertStale (targets : List Key) (s : Store) : Store × Result :=
  match expandStaleTargets readIso targets with
  | none => (s, .raised)
  | some keys =>
    let building := fun key => s.rows.any (fun r => r.key = key && r.status = .building)
    (keys.foldl (fun s key => seedKey key s) s, .count (keys.countP (fun key => !building key)))

def leaseText (row : Row) : String := row.leaseExpiresAt.getD ""

/-- The expired leases, oldest first, at most `limit` of them. -/
def expired (cutoff : String) (limit : Int) (s : Store) : List Nat :=
  (((s.rows.filter (fun r => r.status = .building && r.leaseExpiresAt.any (fun lease => lease < cutoff))).insertionSort
    (fun a b => leaseText a < leaseText b ∨ (leaseText a = leaseText b ∧ a.rollupId ≤ b.rollupId))).take
      limit.toNat).map Row.rollupId

def reclaimStaleBuilding (cutoff : String) (limit : Int) (s : Store) : Store × Result :=
  let ids := expired cutoff limit s
  ({ s with rows := s.rows.map (fun r => if r.rollupId ∈ ids then stale r else r) }, .count ids.length)

/-- The rollups built from one of the nodes. -/
def builtFrom (nodeIds : List Int) (s : Store) : List Nat :=
  (s.sources.filter (fun x => x.2 ∈ nodeIds)).map Prod.fst

def purge (row : Row) : Row :=
  { stale row with
    summary := none
    tokenCount := none
    sourceFingerprint := none
    error := none }

def purgeRollupsForSources (nodeIds : List Int) (s : Store) : Store × Result :=
  let ids := builtFrom nodeIds s
  ({ s with
      rows := s.rows.map (fun r => if r.rollupId ∈ ids then purge r else r)
      sources := s.sources.filter (fun x => x.1 ∉ ids) },
    .count (s.rows.countP (fun r => r.rollupId ∈ ids)))

/-! ## The outbox -/

/-- `while current <= end and remaining_days > 0`: the days expanded and the
first day not expanded. The day after the last date raises. -/
def drainDays (last : Int) : Nat → Int → Option (List Int × Int)
  | 0, current => some ([], current)
  | remaining + 1, current =>
    if current ≤ last then
      if current + 1 ≤ maxOrdinal then
        (drainDays last remaining (current + 1)).map (fun r => (current :: r.1, r.2))
      else none
    else some ([], current)

/-- What a pass does: the keys it marks, in order, and the outbox it leaves. -/
structure DrainPlan where
  keys : List Key
  invalidations : List Event
  days : Nat
  deriving DecidableEq, Repr

/-- The first and the last day of an event, the earlier one first. -/
def eventDays (e : Event) : Option (Int × Int) :=
  match fromTimestamp e.coveredStart, fromTimestamp e.coveredEnd with
  | some first, some last => if last < first then some (last, first) else some (first, last)
  | _, _ => none

/-- The days a pass expands of one event, the day it would resume at, and
whether the event is used up. -/
structure Expansion where
  days : List Int
  next : Int
  finished : Bool
  deriving DecidableEq, Repr

def expandEvent (remaining : Nat) (e : Event) : Option Expansion :=
  (eventDays e).bind (fun bounds =>
    (drainDays bounds.2 remaining (e.nextDay.getD bounds.1)).map (fun r => ⟨r.1, r.2, bounds.2 < r.2⟩))

/-- The outbox without an event, and with its resume day set. -/
def dropEvent (x : Event) (outbox : List Event) : List Event := outbox.filter (fun y => y.eventId ≠ x.eventId)

def resumeEvent (x : Event) (next : Int) (outbox : List Event) : List Event :=
  outbox.map (fun y => if y.eventId = x.eventId then { y with nextDay := some next } else y)

def expandedKeys (scope : String) (days : List Int) : List Key := days.flatMap (fun day => dayKeys day scope)

/-- The loop over the fetched events. An event is deleted once its days are
used up; the pass stops inside an event or when its budget is spent. -/
def drainEvents : List Event → Nat → List Event → Option DrainPlan
  | [], _, outbox => some ⟨[], outbox, 0⟩
  | e :: rest, remaining, outbox =>
    (expandEvent remaining e).bind (fun x =>
      if x.finished then
        if remaining - x.days.length = 0 then some ⟨expandedKeys e.scope x.days, dropEvent e outbox, x.days.length⟩
        else (drainEvents rest (remaining - x.days.length) (dropEvent e outbox)).map (fun plan =>
          ⟨expandedKeys e.scope x.days ++ plan.keys, plan.invalidations, x.days.length + plan.days⟩)
      else some ⟨expandedKeys e.scope x.days, resumeEvent e x.next outbox, x.days.length⟩)

/-- The rows and the outbox are different tables, so the marks are made after
the outbox is settled. -/
def drainInvalidations (eventLimit dayBudget : Int) (s : Store) : Store × Result :=
  if eventLimit.toNat = 0 ∨ dayBudget.toNat = 0 then (s, .count 0)
  else
    match drainEvents (s.invalidations.take eventLimit.toNat) dayBudget.toNat s.invalidations with
    | none => (s, .raised)
    | some plan => (staleKeys plan.keys { s with invalidations := plan.invalidations }, .count plan.days)

/-! ## Node mutations and their triggers -/

def Node.coveredStart (n : Node) : Rat := min (n.earliestAt.getD n.createdAt) (n.latestAt.getD n.createdAt)

def Node.coveredEnd (n : Node) : Rat := max (n.earliestAt.getD n.createdAt) (n.latestAt.getD n.createdAt)

/-- The trigger body: one outbox row about one version of a node. -/
def appendEvent (n : Node) (operation : Mutation) (s : Store) : Store :=
  { s with
    invalidations := s.invalidations ++
      [{ eventId := s.nextEventId, nodeId := n.nodeId, scope := n.sessionId, coveredStart := n.coveredStart,
         coveredEnd := n.coveredEnd, operation := operation }]
    nextEventId := s.nextEventId + 1 }

def insertNode (n : Node) (s : Store) : Store :=
  if s.nodes.any (fun x => x.nodeId = n.nodeId) then s
  else appendEvent n .insert { s with nodes := s.nodes ++ [n] }

def deleteNode (nodeId : Int) (s : Store) : Store :=
  match s.nodes.find? (fun x => x.nodeId = nodeId) with
  | none => s
  | some old => { appendEvent old .delete s with nodes := s.nodes.filter (fun x => x.nodeId ≠ nodeId) }

/-- Both the old and the new version are announced. -/
def updateNode (n : Node) (s : Store) : Store :=
  match s.nodes.find? (fun x => x.nodeId = n.nodeId) with
  | none => s
  | some old => appendEvent n .update (appendEvent old .update
      { s with nodes := s.nodes.map (fun x => if x.nodeId = n.nodeId then n else x) })

/-! ## Runs -/

inductive Op where
  | upsertBuilding (key : Key) (now deadline nonce : String)
  | markReady (token : RollupBuildToken) (summary : String) (tokenCount : Int) (sourceNodeIds : List Int)
      (fingerprint now : String)
  | markFailed (token : RollupBuildToken) (error now : String)
  | deferIncomplete (token : RollupBuildToken) (reason : String)
  | resolveNoSource (token : RollupBuildToken)
  | markStaleForDay (day : PeriodStart) (scope : String)
  | staleAggregatesForDay (day : PeriodStart) (scope : String)
  | upsertStale (targets : List Key)
  | reclaimStaleBuilding (cutoff : String) (limit : Int)
  | purgeRollupsForSources (nodeIds : List Int)
  | drainInvalidations (eventLimit dayBudget : Int)
  | insertNode (n : Node)
  | deleteNode (nodeId : Int)
  | updateNode (n : Node)
  deriving DecidableEq, Repr

def step (s : Store) : Op → Store × Result
  | .upsertBuilding key now deadline nonce => upsertBuilding key now deadline nonce s
  | .markReady token summary tokenCount sourceNodeIds fingerprint now =>
    markReady readIso token summary tokenCount sourceNodeIds fingerprint now s
  | .markFailed token error now => markFailed token error now s
  | .deferIncomplete token reason => deferIncomplete token reason s
  | .resolveNoSource token => resolveNoSource token s
  | .markStaleForDay day scope => markStaleForDay readIso day scope s
  | .staleAggregatesForDay day scope => staleAggregatesForDay readIso day scope s
  | .upsertStale targets => upsertStale readIso targets s
  | .reclaimStaleBuilding cutoff limit => reclaimStaleBuilding cutoff limit s
  | .purgeRollupsForSources nodeIds => purgeRollupsForSources nodeIds s
  | .drainInvalidations eventLimit dayBudget => drainInvalidations eventLimit dayBudget s
  | .insertNode n => (insertNode n s, .done true)
  | .deleteNode nodeId => (deleteNode nodeId s, .done true)
  | .updateNode n => (updateNode n s, .done true)

/-- The store after a sequence of transactions. -/
def run (s : Store) (ops : List Op) : Store := ops.foldl (fun s op => (step readIso s op).1) s

end Operations

end RollupStore
