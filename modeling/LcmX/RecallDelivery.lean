import LcmX.Lib.Json

/-!
# Fitting a recall response to its cap

An answer-ready response is one JSON text of at most a given number of characters. It is brought under the cap in a
fixed order: event-time fields go first, then the end of the query, then whole hits from the lowest rank on. The
blocks that report on the hits are written again afterwards.
-/
namespace RecallDelivery

abbrev Members := List (String × Json.Value)

abbrev Hit := Members

/-- The separators that `json.dumps` writes, with `ensure_ascii=False`. -/
def plain : Json.Style := ⟨false, [',', ' '], [':', ' '], false⟩

def truthy : Json.Value → Bool
  | .null => false
  | .bool b => b
  | .int n => n ≠ 0
  | .float first rest => ((first :: rest.toList).takeWhile fun c => c ≠ 'e' && c ≠ 'E').any fun c => '1' ≤ c && c ≤ '9'
  | .str s => s ≠ ""
  | .arr items => !items.isEmpty
  | .obj members => !members.isEmpty

def intAt (hit : Hit) (key : String) : Option Int :=
  match hit.lookup key with
  | some (.int n) => some n
  | _ => none

def isSummary (hit : Hit) : Bool :=
  match hit.lookup "kind" with
  | some (.str kind) => kind = "summary"
  | _ => false

def duplicateStoreIds (hit : Hit) : List Int :=
  match hit.lookup "duplicate_store_ids" with
  | some (.arr items) => items.filterMap fun
    | .int n => some n
    | _ => none
  | _ => []

/-! ## Event-time fields -/

def eventTimeKeys : List String :=
  ["event_time", "event_time_source", "time_uncertain", "event_time_start", "event_time_end"]

def hasEventTime (hit : Hit) : Bool := eventTimeKeys.any fun key => (hit.lookup key).isSome

def isEventTimeKey (uncertain : Bool) (key : String) : Bool :=
  key ∈ eventTimeKeys || (uncertain && (key = "observation_time" || key = "occurrence_time"))

def timeUncertain (hit : Hit) : Bool := (hit.lookup "time_uncertain").any truthy

def withoutEventTime (hit : Hit) : Hit := hit.filter fun m => !isEventTimeKey (timeUncertain hit) m.1

/-! ## The blocks that report on the hits -/

def exactRefs (hits : List Hit) : List Json.Value := hits.filterMap fun hit => (hit.lookup "exact_ref").filter truthy

def expandedCount (hits : List Hit) : Nat := hits.countP fun hit => (hit.lookup "content").isSome

structure Delta where
  seenRefCount : Nat
  novelRefCount : Nat
  novelRefs : List Json.Value
  progress : Bool
  terminationReason : Option String

def Delta.members (d : Delta) : Members := [
  ("protocol", .str "exact-ref-delta-v1"), ("seen_ref_count", .int d.seenRefCount),
    ("novel_ref_count", .int d.novelRefCount),
  ("novel_refs", .arr d.novelRefs), ("progress", .bool d.progress),
  ("termination_reason", d.terminationReason.elim .null .str)]

/-- The block for other refs: the first two members stay. -/
def Delta.recount (d : Delta) (refs : List Json.Value) : Delta :=
  { d with
    novelRefCount := refs.length
    novelRefs := refs
    progress := !refs.isEmpty
    terminationReason := if refs.isEmpty then some "no_novel_exact_ref" else none }

/-- What is told of the hit that the full-text arm ranks first. -/
structure Anchor where
  fired : Bool
  position : Option Nat
  delivered : Option Bool

def Anchor.members (a : Anchor) : Members := [
  ("fired", .bool a.fired), ("position", a.position.elim .null fun n => .int n),
    ("delivered", a.delivered.elim .null .bool)]

def hitIdentity (hit : Hit) : String × Option Int :=
  match intAt hit "node_id" with
  | some node => ("node", some node)
  | none => ("message", intAt hit "store_id")

def ftsAnchorDelivered (hits : List Hit) (first : Hit) : Bool :=
  hits.any fun hit =>
    hitIdentity hit = hitIdentity first ||
      ((hitIdentity first).1 = "message" && (hitIdentity first).2.any fun id => id ∈ duplicateStoreIds hit)

/-- A reply that was placed behind the message it answers. -/
structure Receipt where
  storeId : Int
  afterStoreId : Int
deriving DecidableEq

def Receipt.members (p : Receipt) : Members := [("store_id", .int p.storeId), ("after_store_id", .int p.afterStoreId)]

def deliveredAdjacentReceipts (hits : List Hit) (pairs : List Receipt) : List Receipt :=
  pairs.filter fun p => hits.any fun hit =>
    !isSummary hit && (intAt hit "store_id" = some p.storeId || p.storeId ∈ duplicateStoreIds hit)

/-! ## The response -/

/-- A response, its blocks laid out in one record. The members that fitting neither reads nor writes are kept in the
runs in which they are written. -/
structure Response where
  query : String
  /-- `limit`, `scope_bias` and `include`. -/
  settings : Members
  totalResults : Nat
  hits : List Hit
  /-- The start of `provenance`, from `arms_run` on. -/
  arms : Members
  anchor : Option Anchor
  /-- What stands in `provenance` between `fts_anchor` and `answer_ready`. -/
  detail : Members
  expandedHitCount : Nat
  limits : Members
  responseTruncated : Bool
  strict : Members
  summaryLeads : Option (List Members)
  referencePolicy : Members
  queryTruncated : Option Bool
  occurrenceTime : Members
  adjacentReply : Option (List Receipt)
  /-- `metrics`, `degraded`, `degraded_reason` and `timeout`. -/
  status : Members
  /-- The reason beside `event_time_unavailable`, where the response was built with it. -/
  eventTimeUnavailable : Option String
  /-- What stands before `delta`. -/
  tail : Members
  delta : Option Delta
  /-- The same marker, set while fitting: it stands last. -/
  lateUnavailable : Option String

def optional (key : String) (v : Option Json.Value) : Members := v.toList.map (key, ·)

def marker (reason : Option String) : Members :=
  reason.elim [] fun reason => [("event_time_unavailable", .bool true), ("event_time_unavailable_reason", .str reason)]

namespace Response

def expansion (r : Response) : Members :=
  ("expanded_hit_count", .int r.expandedHitCount) :: r.limits ++
    [("response_truncated", .bool r.responseTruncated)] ++ r.strict ++
    optional "summary_leads" (r.summaryLeads.map fun leads => .arr (leads.map .obj)) ++ r.referencePolicy ++
    optional "query_truncated" (r.queryTruncated.map .bool)

def provenance (r : Response) : Members :=
  r.arms ++ optional "fts_anchor" (r.anchor.map fun a => .obj a.members) ++ r.detail ++
    [("answer_ready", .obj r.expansion)] ++
    r.occurrenceTime ++ optional "adjacent_reply"
      (r.adjacentReply.map fun pairs => .arr (pairs.map fun p => .obj p.members))

def members (r : Response) : Members :=
  ("query", .str r.query) :: r.settings ++
    [("total_results", .int r.totalResults), ("hits", .arr (r.hits.map .obj)),
      ("provenance", .obj r.provenance)] ++ r.status ++
    marker r.eventTimeUnavailable ++ r.tail ++ optional "delta"
      (r.delta.map fun d => .obj d.members) ++ marker r.lateUnavailable

def dumps (r : Response) : List Char := Json.dumps plain (.obj r.members)

def leads (r : Response) : List Members := r.summaryLeads.getD []

/-- The reason of the marker, wherever it stands. -/
def unavailable (r : Response) : Option String := r.eventTimeUnavailable.or r.lateUnavailable

/-- The event-time fields of one hit go, and the marker comes unless it is there. -/
def strip (r : Response) (i : Nat) : Response :=
  { r with
    hits := r.hits.modify i withoutEventTime
    lateUnavailable := if r.unavailable.isSome then r.lateUnavailable else some "response_cap" }

def unmarked (r : Response) : Response := { r with eventTimeUnavailable := none, lateUnavailable := none }

def cutQuery (r : Response) : Response :=
  let cut := String.ofList (r.query.toList.take 4096)
  { r with query := cut, queryTruncated := some (cut.length < r.query.length) }

/-- One turn of the cap loop: the last hit goes, and once there is none the last lead. -/
def pop (r : Response) : Response :=
  let r := if r.hits ≠ [] then { r with hits := r.hits.dropLast }
      else { r with summaryLeads := r.summaryLeads.map List.dropLast }
  { r with totalResults := r.hits.length, responseTruncated := true, expandedHitCount := expandedCount r.hits }

def recountDelta (r : Response) : Response := { r with delta := r.delta.map fun d => d.recount (exactRefs r.hits) }

/-- An anchor that did not fire has nothing to deliver. -/
def setDelivered (r : Response) (delivered : Bool) : Response :=
  { r with anchor := r.anchor.map fun a => if a.fired then { a with delivered := some delivered } else a }

def recheckAnchor (r : Response) (first : Hit) : Response := r.setDelivered (ftsAnchorDelivered r.hits first)

/-- What is left to pop. -/
def units (r : Response) : Nat := r.hits.length + r.leads.length

theorem units_pop (r : Response) : r.pop.units = r.units - 1 := by
  cases hleads : r.summaryLeads <;> cases hhits : r.hits <;> simp [pop, units, leads, hleads, hhits]

end Response

/-! ## Fitting -/

/-- A response with its text. -/
structure Draft where
  response : Response
  encoded : List Char
  sound : encoded = response.dumps

def encode (r : Response) : Draft := ⟨r, r.dumps, rfl⟩

structure Call where
  responseCharCap : Nat
  /-- The first hit of the full-text arm. -/
  ftsFirst : Hit
  adjacentReply : List Receipt

/-- The hits below the given rank, from the lowest one on, until the text fits. -/
def stripHits (cap : Nat) : Nat → Draft → Draft
  | 0, d => d
  | i + 1, d =>
    if d.encoded.length ≤ cap then d
    else if hasEventTime (d.response.hits.getD i []) then stripHits cap i (encode (d.response.strip i))
    else stripHits cap i d

def fitEventTime (cap : Nat) (r : Response) : Draft × Option String :=
  let d := stripHits cap r.hits.length (encode r)
  if cap < d.encoded.length ∧ d.response.unavailable.isSome then (encode d.response.unmarked, d.response.unavailable)
  else (d, none)

def stripToFit (cap : Nat) (d : Draft) : Draft × Option String :=
  if cap < d.encoded.length then fitEventTime cap d.response else (d, none)

def popLoop (cap : Nat) (d : Draft) : Draft :=
  if cap < d.encoded.length ∧ (d.response.hits ≠ [] ∨ d.response.leads ≠ []) then
    popLoop cap (encode d.response.pop) else d
termination_by d.response.units
decreasing_by
  next h =>
    simp only [encode, Response.units_pop]
    have := h.2
    rw [← List.length_pos_iff, ← List.length_pos_iff] at this
    simp only [Response.units]
    omega

/-- A marked response is sent only if it fits. -/
def offer (cap : Nat) (marked : Response) (d : Draft) : Draft :=
  if (encode marked).encoded.length ≤ cap then encode marked else d

/-- The marker comes back with its reason. -/
def putBack (cap : Nat) (reason : Option String) (d : Draft) : Draft :=
  match reason with
  | none => d
  | some reason => offer cap { d.response with lateUnavailable := some reason } d

def publishReceipts (call : Call) (d : Draft) : Draft :=
  let receipts := deliveredAdjacentReceipts d.response.hits call.adjacentReply
  if receipts.isEmpty then d else offer call.responseCharCap { d.response with adjacentReply := some receipts } d

def fitAnswerReadyResponse (call : Call) (response : Response) : Draft :=
  let cap := call.responseCharCap
  -- The anchor is sized with its widest value.
  let (d, deferred) := stripToFit cap (encode (response.setDelivered false))
  let d := if cap < d.encoded.length then encode d.response.cutQuery else d
  let d := putBack cap deferred (popLoop cap d)
  let d := encode d.response.recountDelta
  let d := encode (d.response.recheckAnchor call.ftsFirst)
  publishReceipts call d

end RecallDelivery
