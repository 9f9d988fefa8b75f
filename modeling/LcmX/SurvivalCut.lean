import Mathlib.Data.List.Sort

/-!
# The survival cut

A list over its budget is cut at a user row: the oldest whole turns leave, as far as
every row that leaves is stored. When not even the newest turn fits, its rows are
replaced by bounded projections of their stored rows.

A row of the list is an object, which is its position; a row that the cut makes is
none of them. What the engine knows of a row, and how it measures and renders
rows, is given.
-/
namespace SurvivalFit

/-- The values of rows and of stored rows, as the engine reads them. -/
structure Host (V S : Type) where
  role : V → String
  /-- The content, when it is a string. -/
  textContent : V → Option String
  /-- The length of the normalized content. -/
  contentLength : V → Nat
  measure : List V → Nat
  countTokens : V → Nat
  isVerifiedScaffold : V → Bool
  isGenerated : V → Bool
  isCompletedReply : V → Bool
  /-- The user text of a carrier, and the summary in front of it. -/
  carrierRemainder : V → Option String
  carrierSummary : V → String
  /-- The user row that is left when a carrier is split. -/
  splitCarrier : V → String → V
  userRow : String → V
  withNotice : V → String → V
  /-- A summary row gets its identity from the carrier that was split, from the user row it absorbs, and from the
  identities that are taken. -/
  summaryIdentity : V → V → String → Option V → List V → V
  get : Nat → Option S
  storedRole : S → String
  storedLength : S → Nat
  projectMessage : V → S → Nat → V
  projectLegacy : V → S → Nat → V
  projectReply : V → S → Nat → V
  /-- The ids among some that a summary node covers, when they can be read. -/
  nodeCovered : List Nat → Option (List Nat)

structure Row (V : Type) where
  /-- The object; a row that the cut makes has none. -/
  object : Option Nat
  value : V
  deriving DecidableEq

/-- The arguments of a cut. -/
structure CutCall (V : Type) where
  result : List V
  lead : Nat
  budget : Int
  persisted : Bool
  reason : String
  storeIds : Nat → Option Nat
  wholeTurns : Bool
  keepFrom : Option Nat
  hardCap : Option Int

def headLength : Nat := 1200

/-- `_NOTICE`. -/
def noticeText (count : Nat) (first last : Option Nat) : String :=
  let show' (id : Option Nat) := (id.map toString).getD "-"
  "[LCM survival fit: " ++ toString count ++ " earlier messages (store ids " ++ show' first ++ ".." ++ show' last ++
    ") are stored verbatim but not in live context; lcm_grep / lcm_load_session reach them.]"

section

variable {V S : Type} (h : Host V S)

def mapped (ids : Nat → Option Nat) (row : Row V) : Option Nat := row.object.bind ids

def Row.isSame (a b : Row V) : Bool := a.object.isSome ∧ a.object = b.object

def measureRows (rows : List (Row V)) : Int := h.measure (rows.map Row.value)

/-! ## The newest turn -/

/-- A tool row is projected before another row, else the longer one. -/
def projectsBefore (a b : V) : Bool :=
  (h.role a = "tool" ∧ h.role b ≠ "tool") ∨
    ((h.role a = "tool" ↔ h.role b = "tool") ∧ h.countTokens b ≤ h.countTokens a)

/-- The positions of a turn in the order in which they are projected. -/
def projectionOrder (turn : List (Row V)) : List Nat :=
  (turn.zipIdx.insertionSort fun a b => projectsBefore h a.1.value b.1.value = true).map Prod.snd

/-- The stored row of a row that is long enough to be projected. -/
def projectable (ids : Nat → Option Nat) (source : Row V) : Option S :=
  if h.countTokens source.value < 256 then none
  else ((mapped ids source).bind h.get).filter fun stored => h.storedRole stored = h.role source.value

/-- Stored rows get their head and tail until the turn fits. -/
def projectHeads (ids : Nat → Option Nat) (limit : Int) (turn : List (Row V)) : List Nat → List (Row V) → List (Row V)
  | [], out => out
  | index :: order, out =>
    if measureRows h out ≤ limit then out
    else
      match turn[index]? with
      | none => projectHeads ids limit turn order out
      | some source =>
        match projectable h ids source with
        | none => projectHeads ids limit turn order out
        | some stored =>
          let tokens := h.countTokens source.value
          let projected := h.projectMessage source.value stored tokens
          projectHeads ids limit turn order
            (if h.countTokens projected < tokens then out.set index ⟨none, projected⟩ else out)

/-- Short rows of some roles get the mark alone until the turn fits. -/
def projectMarks (ids : Nat → Option Nat) (limit : Int) (turn : List (Row V)) (roles : List String) :
    List Nat → List (Row V) → List (Row V)
  | [], out => out
  | index :: order, out =>
    match turn[index]? with
    | none => projectMarks ids limit turn roles order out
    | some source =>
      if h.role source.value ∉ roles then projectMarks ids limit turn roles order out
      else if measureRows h out ≤ limit then out
      else
        match (projectable h ids source).filter fun stored => h.storedLength stored ≤ 2 * headLength, out[index]? with
        | some stored, some current =>
          let projected := h.projectLegacy current.value stored (h.countTokens source.value)
          projectMarks ids limit turn roles order
            (if h.countTokens projected < h.countTokens current.value then out.set index ⟨none, projected⟩ else out)
        | _, _ => projectMarks ids limit turn roles order out

/-- `_survival_projection`. -/
def projection (ids : Nat → Option Nat) (turn : List (Row V)) (limit : Int) (hardCap : Option Int) : List (Row V) :=
  let order := projectionOrder h turn
  let heads := projectHeads h ids limit turn order turn
  if measureRows h heads ≤ limit then heads
  else
    let marks := projectMarks h ids limit turn ["tool", "assistant"] order heads
    if measureRows h marks ≤ limit then marks
    else
      let users := projectMarks h ids limit turn ["user"] order marks
      -- user text is kept when its marks do not make the list fit
      if (hardCap.any fun cap => measureRows h marks ≤ cap) ∧ limit < measureRows h users then marks else users

/-! ## The parts of a list -/

/-- The rows that always stay, the rows that may leave, and the carrier that was split between them. -/
structure Parts (V : Type) where
  head : List (Row V)
  body : List (Row V)
  carrier : Option (Row V)
  ids : Nat → Option Nat

def CutCall.rows (c : CutCall V) : List (Row V) := c.result.zipIdx.map fun p => ⟨some p.2, p.1⟩

def CutCall.isExit (c : CutCall V) : Bool := "exit_fit:".toList.isPrefixOf c.reason.toList

def parts (c : CutCall V) : Parts V :=
  let head := c.rows.take c.lead
  let body := c.rows.drop c.lead
  match if c.wholeTurns then head.getLast? else none with
  | none => ⟨head, body, none, c.storeIds⟩
  | some carrier =>
    match h.carrierRemainder carrier.value with
    | none => ⟨head, body, none, c.storeIds⟩
    | some remainder =>
      -- the user row of the carrier is an object of its own
      let fresh := c.result.length
      ⟨head.dropLast, ⟨some fresh, h.splitCarrier carrier.value remainder⟩ :: body, some carrier,
        Function.update c.storeIds fresh (mapped c.storeIds carrier)⟩

def isDurable (c : CutCall V) (ids : Nat → Option Nat) (row : Row V) : Bool :=
  c.persisted || (mapped ids row).isSome || h.isVerifiedScaffold row.value

/-! ## The cut list -/

structure Built (V : Type) where
  fitted : List (Row V)
  count : Nat
  ids : List Nat
  notice : String
  /-- The carrier that was formed again, with the user row in it. -/
  formed : Option (Row V × Row V)

def sortIds (ids : List Nat) : List Nat := ids.insertionSort (· ≤ ·)

def droppedRows (p : Parts V) (cut : Nat) (kept : List (Row V)) (reply : Option (Row V)) : List (Row V) :=
  (p.body.take cut).filter fun m => !(reply.any (Row.isSame m)) && !(kept.any (Row.isSame m))

def noticedHead (p : Parts V) (notice : String) : List (Row V) :=
  match p.head with
  | [] => []
  | first :: rest => if h.role first.value = "system" then
        ⟨none, h.withNotice first.value notice⟩ :: rest else first :: rest

/-- The summary of a split carrier in front of the rows that are kept: around the first of them when it is a user
row that can be found in it again, else in a row of its own. -/
def withSummary (carrier : Row V) (out kept : List (Row V)) : List (Row V) × Option (Row V × Row V) :=
  let summary := h.carrierSummary carrier.value
  let identified (text kind : String) (absorbed : Option V) (taken : List (Row V)) : Row V :=
    ⟨none, h.summaryIdentity carrier.value (h.userRow text) kind absorbed (taken.map Row.value)⟩
  let alone := (out ++ identified summary "survival_summary" none (out ++ kept) :: kept, none)
  match kept with
  | [] => alone
  | first :: more =>
    match h.textContent first.value with
    | none => alone
    | some content =>
      let text := summary ++ "\n\n" ++ content
      if h.role first.value = "user" ∧ (more.any fun row => h.role row.value = "user") ∧
          h.carrierRemainder (h.userRow text) = some content then
        let merged := identified text "carrier" (some first.value) (out ++ more)
        (out ++ merged :: more, some (merged, first))
      else alone

def build (c : CutCall V) (p : Parts V) (cut : Nat) (kept : List (Row V)) (reply : Option (Row V)) : Built V :=
  let dropped := droppedRows p cut kept reply
  let stored := sortIds (dropped.filterMap (mapped p.ids))
  let counted := dropped.filter fun row => !h.isGenerated row.value
  let notice := noticeText counted.length stored.head? stored.getLast?
  let out := noticedHead h p notice
  let (fitted, formed) := (p.carrier.map fun carrier => withSummary h carrier out kept).getD (out ++ kept, none)
  ⟨if fitted.isEmpty then c.rows.drop (c.rows.length - 1)
    else fitted, counted.length, sortIds (counted.filterMap (mapped p.ids)),
    notice, formed⟩

structure Cut (V : Type) where
  fitted : List (Row V)
  count : Nat
  ids : List Nat
  projected : Bool
  notice : String
  /-- `_survival_cut_carrier`: the carrier, its summary, and the store id of its user row. -/
  carrier : Option (Row V × String × Nat)
  deriving DecidableEq

def accepted (p : Parts V) (kept : List (Row V)) (b : Built V) : Cut V :=
  ⟨b.fitted, b.count, b.ids, kept.any fun row => row.object.isNone, b.notice,
    b.formed.bind fun f => p.carrier.bind fun carrier => (mapped p.ids f.2).map fun id =>
      (f.1, h.carrierSummary carrier.value ++ "\n\n", id)⟩

/-- The rows to keep, with the completed reply in front of them when it fits. -/
def keepReply (c : CutCall V) (p : Parts V) (cut : Nat) (kept : List (Row V)) : List (Row V) × Option (Row V) :=
  match (if cut = 0 then none else p.body[cut - 1]?).filter fun reply => h.isCompletedReply reply.value with
  | none => (kept, none)
  | some reply =>
    let candidate := if kept.any (Row.isSame reply) then kept else reply :: kept
    if measureRows h (build h c p cut candidate (some reply)).fitted ≤ c.budget then (candidate, some reply)
    else if c.wholeTurns ∨ h.contentLength reply.value ≤ 2 * headLength then (kept, none)
    else
      match ((mapped p.ids reply).bind h.get).filter fun stored => h.storedRole stored = "assistant" with
      | none => (kept, none)
      | some stored =>
        let candidate := ⟨none, h.projectReply reply.value stored (h.countTokens reply.value)⟩ :: kept
        if measureRows h (build h c p cut candidate (some reply)).fitted ≤ c.budget then
          (candidate, some reply) else (kept, none)

/-- The positions of the user rows in the body. -/
def users (p : Parts V) : List Nat :=
  (List.range p.body.length).filter fun i => p.body[i]?.any fun row => h.role row.value = "user"

/-- The ids that an exit fit may drop. -/
def coveredIds (c : CutCall V) (p : Parts V) : List Nat :=
  let droppable := (c.keepFrom.map fun keep => p.body.take (keep - p.head.length)).getD p.body
  (h.nodeCovered (droppable.filterMap (mapped p.ids))).getD []

def isCovered (c : CutCall V) (p : Parts V) (row : Row V) : Bool :=
  (mapped p.ids row).any (· ∈ coveredIds h c p) || h.isVerifiedScaffold row.value

/-- The oldest cut on a user row that is allowed and fits. -/
def oldestCut (c : CutCall V) (p : Parts V) (newest : Nat) : List Nat → Option (Cut V)
  | [] => none
  | index :: rest =>
    if c.keepFrom.any (· < p.head.length + index) then none
    else
      let (kept, reply) := if index = newest then keepReply h c p index (p.body.drop index)
        else (p.body.drop index, none)
      let dropped := (p.body.take index).filter fun m => !(reply.any (Row.isSame m))
      if index = 0 then oldestCut c p newest rest
      else if ¬ dropped.all (isDurable h c p.ids) then none
      else if c.isExit ∧ ¬ dropped.all (isCovered h c p) then none
      else if c.isExit ∧ ¬ dropped.any (fun m => (mapped p.ids m).isSome) then oldestCut c p newest rest
      else
        let built := build h c p index kept reply
        if measureRows h built.fitted ≤ c.budget then some (accepted h p kept built) else oldestCut c p newest rest

/-- The newest user turn alone, projected. -/
def newestTurn (c : CutCall V) (p : Parts V) (cut : Nat) : Option (Cut V) :=
  if ¬ (p.body.take cut).all (isDurable h c p.ids) then none
  else
    let noticed := (build h c p cut (p.body.drop cut) none).fitted.take p.head.length
    let headTokens := measureRows h noticed
    let turn := projection h p.ids (p.body.drop cut) (c.budget - headTokens) (c.hardCap.map (· - headTokens))
    let (kept, reply) := keepReply h c p cut turn
    some (accepted h p kept (build h c p cut kept reply))

/-- `_survival_cut`. -/
def survivalCut (c : CutCall V) : Option (Cut V) :=
  let p := parts h c
  let newest := (users h p).getLast?.getD 0
  match oldestCut h c p newest (users h p) with
  | some cut => some cut
  | none => if c.wholeTurns then none else newestTurn h c p newest

end

end SurvivalFit
