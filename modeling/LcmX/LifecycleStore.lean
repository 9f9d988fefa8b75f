import Mathlib.Data.List.Dedup
import LcmX.Lib.KeyedTable

/-!
# The lifecycle row of a conversation

`lifecycle_state.py`: one row for each conversation in `lcm_lifecycle_state`, and
the single SQL statements that its writers run. A time is whatever
`time.time()` gave the writer before it ran the statement; only the order of two
times matters, so they are integers here. An empty string stands for `None` in
the optional arguments, which the source only tests for truth.
-/
namespace Lifecycle

structure Row where
  currentSessionId : Option String
  lastFinalizedSessionId : Option String
  currentFrontierStoreId : Int
  lastFinalizedFrontierStoreId : Int
  debtKind : Option String
  debtSizeEstimate : Int
  currentBoundAt : Option Int
  lastFinalizedAt : Option Int
  debtUpdatedAt : Option Int
  lastMaintenanceAttemptAt : Option Int
  lastRolloverAt : Option Int
  lastResetAt : Option Int
  updatedAt : Int
deriving DecidableEq, Repr

/-- `lcm_lifecycle_state`, by `conversation_id`. -/
abbrev Rows := KeyedTable String Row

structure LifecycleState where
  conversationId : String
  row : Row
deriving DecidableEq, Repr

def getByConversation (t : Rows) (conversation : String) : Option LifecycleState :=
  if conversation = "" then none else (t.get conversation).map fun row => ⟨conversation, row⟩

/-- `ORDER BY CASE WHEN current_session_id = ? THEN 0 ELSE 1 END, updated_at DESC`. -/
def sessionBefore (session : String) (a b : String × Row) : Bool :=
  if a.2.currentSessionId = some session then
    b.2.currentSessionId ≠ some session ∨ b.2.updatedAt ≤ a.2.updatedAt
  else b.2.currentSessionId ≠ some session ∧ b.2.updatedAt ≤ a.2.updatedAt

def getBySession (t : Rows) (session : String) : Option LifecycleState :=
  if session = "" then none
  else
    let found := t.rows.filter fun p =>
      p.2.currentSessionId = some session ∨ p.2.lastFinalizedSessionId = some session
    (found.mergeSort (sessionBefore session)).head?.map fun p => ⟨p.1, p.2⟩

/-! ## Binding -/

def truthy : Option String → Bool
  | none => false
  | some s => s ≠ ""

/-- `last_reset_at IS NULL OR COALESCE(last_finalized_at, 0) >= last_reset_at`. -/
def notResetSince (row : Row) : Bool := row.lastResetAt.all fun reset => reset ≤ row.lastFinalizedAt.getD 0

/-- The row is unbound and this session finalized it last, with no reset since. -/
def ownFinalized (row : Row) (session : String) : Bool :=
  row.currentSessionId = none ∧ row.lastFinalizedSessionId = some session ∧ notResetSince row

def bindFrontier (row : Row) (session : String) : Int :=
  if ownFinalized row session then row.lastFinalizedFrontierStoreId else 0

def bindRolloverAt (row : Row) (session : String) (now : Int) : Option Int :=
  if (truthy row.currentSessionId ∧ row.currentSessionId ≠ some session) ∨
      (row.currentSessionId = none ∧ truthy row.lastFinalizedSessionId ∧ row.lastFinalizedSessionId ≠ some session) then
    some now
  else row.lastRolloverAt

/-- The columns that the conditional `UPDATE` of a bind compares. -/
def sameGuard (seen row : Row) : Bool :=
  row.currentSessionId = seen.currentSessionId ∧ row.lastFinalizedSessionId = seen.lastFinalizedSessionId ∧
    row.lastFinalizedFrontierStoreId = seen.lastFinalizedFrontierStoreId ∧ row.lastFinalizedAt = seen.lastFinalizedAt ∧
      row.lastResetAt = seen.lastResetAt

/-- What the `UPDATE` writes: the decision comes from the row `seen`, the other columns stay. -/
def boundRow (seen : Row) (session : String) (now : Int) (row : Row) : Row :=
  { row with
    currentSessionId := some session
    currentFrontierStoreId := bindFrontier seen session
    currentBoundAt := some now
    lastRolloverAt := bindRolloverAt seen session now
    updatedAt := now }

def firstRow (session : String) (now : Int) : Row where
  currentSessionId := some session
  lastFinalizedSessionId := none
  currentFrontierStoreId := 0
  lastFinalizedFrontierStoreId := 0
  debtKind := none
  debtSizeEstimate := 0
  currentBoundAt := some now
  lastFinalizedAt := none
  debtUpdatedAt := none
  lastMaintenanceAttemptAt := none
  lastRolloverAt := none
  lastResetAt := none
  updatedAt := now

/-- Executing `_bind_plan(existing, ..)`; the first component is `rowcount == 1`. -/
def executeBindPlan (existing : Option Row) (session conversation : String) (now : Int) (t : Rows) : Bool × Rows :=
  match existing with
  | some seen =>
    (t.matches? conversation (sameGuard seen), t.updateWhere conversation (sameGuard seen) (boundRow seen session now))
  | none => ((t.get conversation).isNone, t.insert conversation (firstRow session now))

/-- `rebind_own_finalized`. -/
def executeRebind (session conversation : String) (now : Int) (t : Rows) : Bool × Rows :=
  (t.matches? conversation fun row => ownFinalized row session,
    t.updateWhere conversation (fun row => ownFinalized row session) fun row =>
      { row with
        currentSessionId := some session
        currentFrontierStoreId := row.lastFinalizedFrontierStoreId
        currentBoundAt := some now
        updatedAt := now })

/-! ## The other writers -/

def finalizedRow (session : String) (frontier now : Int) (row : Row) : Row :=
  { row with
    currentSessionId := if row.currentSessionId = some session then none else row.currentSessionId
    currentFrontierStoreId := if row.currentSessionId = some session then 0 else row.currentFrontierStoreId
    lastFinalizedFrontierStoreId :=
      if row.lastFinalizedSessionId = some session ∧ notResetSince row then
        max frontier row.lastFinalizedFrontierStoreId
      else frontier
    lastFinalizedSessionId := some session
    lastFinalizedAt := some now
    updatedAt := now }

/-- The upsert of `record_rollover`; `finalized` comes from the read before it. -/
def rolloverRow (old new : String) (finalized now : Int) (row : Row) : Row :=
  { row with
    currentSessionId := some new
    lastFinalizedSessionId := some old
    currentFrontierStoreId := 0
    lastFinalizedFrontierStoreId := finalized
    currentBoundAt := some now
    lastFinalizedAt := some now
    lastRolloverAt := some now
    lastResetAt := some now
    updatedAt := now }

def executeRollover (conversation old new : String) (finalized now : Int) (t : Rows) : Rows :=
  match t.get conversation with
  | some _ => t.modify conversation (rolloverRow old new finalized now)
  | none => t.insert conversation (rolloverRow old new finalized now (firstRow new now))

/-- The frontier advance of a bound session, alone or inside a publication. -/
def advancedRow (frontier now : Int) (row : Row) : Row :=
  { row with
    currentFrontierStoreId := max row.currentFrontierStoreId frontier
    updatedAt := now }

def boundTo (session : String) (row : Row) : Bool := row.currentSessionId = some session

/-- The four writers that read the row for its existence and then set a few columns of it. -/
inductive Note where
  | reset
  | debt (kind : String) (sizeEstimate : Int)
  | clearDebt
  | maintenanceAttempt
deriving DecidableEq, Repr

def Note.write (now : Int) (row : Row) : Note → Row
  | .reset =>
    { row with
      lastResetAt := some now
      debtKind := none
      debtSizeEstimate := 0
      debtUpdatedAt := some now
      updatedAt := now }
  | .debt kind sizeEstimate =>
    { row with
      debtKind := some kind
      debtSizeEstimate := max 0 sizeEstimate
      debtUpdatedAt := some now
      updatedAt := now }
  | .clearDebt =>
    { row with
      debtKind := none
      debtSizeEstimate := 0
      debtUpdatedAt := some now
      updatedAt := now }
  | .maintenanceAttempt =>
    { row with
      lastMaintenanceAttemptAt := some now
      updatedAt := now }

end Lifecycle
