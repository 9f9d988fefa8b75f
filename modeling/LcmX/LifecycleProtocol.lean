import LcmX.LifecyclePublication

/-!
# Processes that share the lifecycle table

Every statement on the lifecycle connection commits by itself, so a call that
reads and then writes can be interleaved between the two. A call in flight is a
program counter with what it has read; a step runs its next statement.
-/
namespace Lifecycle

/-- `_BIND_CAS_ATTEMPTS`. -/
def bindCasAttempts : Nat := 8

/-- The calls that a process may issue. -/
inductive Request where
  | bindSession (session conversation : String)
  | rebindOwnFinalized (session conversation : String)
  | finalizeSession (conversation session : String) (frontier : Int)
  | recordRollover (conversation old new : String) (frontier : Int)
  | advanceFrontier (conversation session : String) (frontier : Int)
  | note (conversation : String) (change : Note)
  | prune (kept : List String) (maxAge : Option Int)
  | appendMessage (m : Message)
  | publish (p : Publication)
deriving DecidableEq, Repr

/-- A call in flight: what it runs next, and what it has read. -/
inductive Call where
  | bindRead (session : String) (attempts : Nat) (conversation : String)
  | bindWrite (session : String) (attempts : Nat) (existing : Option Row) (conversation : String)
  | bindTransaction (session conversation : String)
  | rebind (session conversation : String)
  | finalize (conversation session : String) (frontier : Int)
  | rolloverRead (conversation old new : String) (frontier : Int)
  | rolloverWrite (conversation old new : String) (finalized : Int)
  | advanceRead (conversation session : String) (frontier : Int)
  | advanceWrite (conversation session : String) (frontier : Int)
  | noteRead (conversation : String) (change : Note)
  | noteWrite (conversation : String) (change : Note)
  | prune (kept : List String) (maxAge : Option Int)
  | append (m : Message)
  | publish (p : Publication)
  /-- The read that returns the row; `required` for the callers that assert it. -/
  | fetch (conversation : String) (required : Bool)
  | returned (state : Option LifecycleState)
  | raised
deriving DecidableEq, Repr

def Request.call : Request → Call
  | .bindSession session conversation => .bindRead session bindCasAttempts conversation
  | .rebindOwnFinalized session conversation => .rebind session conversation
  | .finalizeSession conversation session frontier => .finalize conversation session frontier
  | .recordRollover conversation old new frontier => .rolloverRead conversation old new frontier
  | .advanceFrontier conversation session frontier => .advanceRead conversation session frontier
  | .note conversation change => .noteRead conversation change
  | .prune kept maxAge => .prune kept maxAge
  | .appendMessage m => .append m
  | .publish p => .publish p

def hasData (db : Db) : Option String → Bool
  | none => false
  | some s => s ≠ "" ∧ ((∃ m ∈ db.messages.rows, m.2.sessionId = s) ∨ ∃ node ∈ db.nodes, node.sessionId = s)

/-- `row["current_bound_at"] or row["last_finalized_at"] or row["updated_at"]`. -/
def rowAge (row : Row) : Int :=
  ((row.currentBoundAt.filter (· ≠ 0)).or (row.lastFinalizedAt.filter (· ≠ 0))).getD row.updatedAt

/-- The rows that `prune_empty_sessions` deletes. -/
def prunable (db : Db) (kept : List String) (maxAge : Option Int) (now : Int) (row : Row) : Bool :=
  ¬ hasData db row.currentSessionId ∧ ¬ hasData db row.lastFinalizedSessionId ∧
    (∀ s ∈ row.currentSessionId, s = "" ∨ s ∉ kept) ∧ (∀ s ∈ row.lastFinalizedSessionId, s = "" ∨ s ∉ kept) ∧
      ∀ age ∈ maxAge, age ≤ now - rowAge row

structure Process where
  call : Call
  /-- `_LEGACY_CONVERSATION_IDS` of the process. -/
  legacy : Option (List (Option String))
deriving Repr

/-- The legacy ids that the process works with: its cache, else one probe. -/
def Process.legacyIds (proc : Process) (db : Db) : List (Option String) := proc.legacy.getD (legacyConversationIds db)

/-- The read of one bind attempt, by conversation once it is known. -/
def bindLookup (t : Rows) (session conversation : String) : Option LifecycleState :=
  if conversation ≠ "" then getByConversation t conversation else getBySession t session

def bindResolved (t : Rows) (session conversation : String) : String :=
  if conversation ≠ "" then conversation
  else ((bindLookup t session conversation).map LifecycleState.conversationId).getD session

/-- `_bind_session_in_write_transaction` up to its last read; the result of the update is not checked. -/
def bindTransactionRows (session conversation : String) (now : Int) (t : Rows) : Rows :=
  let existing := (getByConversation t conversation).map LifecycleState.row
  if existing.any (boundTo session) then t else (executeBindPlan existing session conversation now t).2

/-- What the next read or write of a call does to the database, and where the call goes on. -/
def Call.step (now : Int) (legacy : List (Option String)) (db : Db) : Call → Call × Db
  | .bindRead session attempts conversation =>
    let existing := bindLookup db.lifecycle session conversation
    if existing.any fun s => boundTo session s.row then (.returned existing, db)
    else
      (.bindWrite session attempts (existing.map LifecycleState.row)
        (bindResolved db.lifecycle session conversation), db)
  | .bindWrite session attempts existing conversation =>
    let (wrote, rows) := executeBindPlan existing session conversation now db.lifecycle
    let db := { db with lifecycle := rows }
    if wrote then (.fetch conversation true, db)
    else if attempts ≤ 1 then (.bindTransaction session conversation, db)
    else (.bindRead session (attempts - 1) conversation, db)
  | .bindTransaction session conversation =>
    match getByConversation (bindTransactionRows session conversation now db.lifecycle) conversation with
    | none => (.raised, db)
    | some state =>
      (.returned (some state), { db with lifecycle := bindTransactionRows session conversation now db.lifecycle })
  | .rebind session conversation =>
    let (wrote, rows) := executeRebind session conversation now db.lifecycle
    (if wrote then .fetch conversation false else .returned none, { db with lifecycle := rows })
  | .finalize conversation session frontier =>
    if conversation = "" then (.returned none, db)
    else
      (if (db.lifecycle.get conversation).isSome then .fetch conversation false else .returned none,
        { db with lifecycle := db.lifecycle.modify conversation (finalizedRow session frontier now) })
  | .rolloverRead conversation old new frontier =>
    let state := getByConversation db.lifecycle conversation
    if state.any fun s => s.row.currentSessionId = some new ∧ s.row.lastFinalizedSessionId = some old then
      (.returned state, db)
    else
      (.rolloverWrite conversation old new
        (max frontier ((state.map fun s => s.row.lastFinalizedFrontierStoreId).getD 0)), db)
  | .rolloverWrite conversation old new finalized =>
    (.fetch conversation true, { db with lifecycle := executeRollover conversation old new finalized now db.lifecycle })
  | .advanceRead conversation session frontier =>
    if conversation = "" then (.returned none, db)
    else
      let state := getByConversation db.lifecycle conversation
      if state.any fun s => s.row.currentSessionId = some session then (.advanceWrite conversation session frontier, db)
      else (.returned state, db)
  | .advanceWrite conversation session frontier =>
    (.fetch conversation false,
      { db with lifecycle := db.lifecycle.updateWhere conversation (boundTo session) (advancedRow frontier now) })
  | .noteRead conversation change =>
    if (getByConversation db.lifecycle conversation).isSome then (.noteWrite conversation change, db)
    else (.returned none, db)
  | .noteWrite conversation change =>
    (.fetch conversation false,
      { db with lifecycle := db.lifecycle.modify conversation fun row => change.write now row })
  | .prune kept maxAge =>
    (.returned none,
      { db with lifecycle := db.lifecycle.delete fun c => (db.lifecycle.get c).any (prunable db kept maxAge now) })
  | .append m => (.returned none, appendMessage m db)
  | .publish p =>
    match Lifecycle.publish p legacy now db with
    | (none, db') => (.returned none, db')
    | (some _, db') => (.raised, db')
  | .fetch conversation required =>
    let state := getByConversation db.lifecycle conversation
    if required ∧ state = none then (.raised, db) else (.returned state, db)
  | .returned state => (.returned state, db)
  | .raised => (.raised, db)

def Call.finished : Call → Bool
  | .returned _ => true
  | .raised => true
  | _ => false

structure System where
  db : Db
  processes : Nat → Process

inductive Event where
  | start (process : Nat) (request : Request)
  | step (process : Nat) (now : Int)
deriving DecidableEq, Repr

/-- A publication probes the legacy ids when the process has no cache yet. -/
def Process.probe (proc : Process) (db : Db) : Option (List (Option String)) :=
  match proc.call with
  | .publish _ => some (proc.legacyIds db)
  | _ => proc.legacy

def System.next (s : System) : Event → System
  | .start i request =>
    if (s.processes i).call.finished then
      { s with processes := Function.update s.processes i { s.processes i with call := request.call } }
    else s
  | .step i now =>
    let proc := s.processes i
    let (call, db) := proc.call.step now (proc.legacyIds s.db) s.db
    ⟨db, Function.update s.processes i ⟨call, proc.probe s.db⟩⟩

def System.run (s : System) (events : List Event) : System := events.foldl System.next s

@[simp] theorem System.run_nil (s : System) : s.run [] = s := rfl

@[simp] theorem System.run_cons (s : System) (e : Event) (events : List Event) :
    s.run (e :: events) = (s.next e).run events := rfl

theorem System.run_append (s : System) (a b : List Event) : s.run (a ++ b) = (s.run a).run b := List.foldl_append

/-! ## What one step does to a row -/

/-- The ways in which the step of a call changes the row of conversation `c`. -/
inductive RowStep (call : Call) (now : Int) (c : String) : Option Row → Option Row → Prop where
  | bound {session : String} {attempts : Nat} {seen row : Row}
      (hcall : call = .bindWrite session attempts (some seen) c)
      (hguard : sameGuard seen row = true) : RowStep call now c (some row) (some (boundRow seen session now row))
  | first {session : String} {attempts : Nat} (hcall : call = .bindWrite session attempts none c) :
      RowStep call now c none (some (firstRow session now))
  | boundAtOnce {session : String} {row : Row} (hcall : call = .bindTransaction session c)
      (hother : row.currentSessionId ≠ some session) : RowStep call now c (some row)
        (some (boundRow row session now row))
  | firstAtOnce {session : String} (hcall : call = .bindTransaction session c) :
      RowStep call now c none (some (firstRow session now))
  | rebound {session : String} {row : Row} (hcall : call = .rebind session c) (hown : ownFinalized row session = true) :
      RowStep call now c (some row)
        (some { row with
          currentSessionId := some session
          currentFrontierStoreId := row.lastFinalizedFrontierStoreId
          currentBoundAt := some now
          updatedAt := now })
  | finalized {session : String} {frontier : Int} {row : Row} (hcall : call = .finalize c session frontier) :
      RowStep call now c (some row) (some (finalizedRow session frontier now row))
  | rolledOver {old new : String} {finalized : Int} {row : Row} (hcall : call = .rolloverWrite c old new finalized) :
      RowStep call now c (some row) (some (rolloverRow old new finalized now row))
  | rolledOverFirst {old new : String} {finalized : Int} (hcall : call = .rolloverWrite c old new finalized) :
      RowStep call now c none (some (rolloverRow old new finalized now (firstRow new now)))
  | advanced {session : String} {frontier : Int} {row : Row} (hcall : call = .advanceWrite c session frontier)
      (hbound : boundTo session row = true) : RowStep call now c (some row) (some (advancedRow frontier now row))
  | published {p : Publication} {row : Row} (hcall : call = .publish p) (hconv : p.conversationId = c)
      (hbound : boundTo p.sessionId row = true) (hexpected : row.currentFrontierStoreId = p.expectedFrontier) :
      RowStep call now c (some row) (some (advancedRow p.coveredEnd now row))
  | noted {change : Note} {row : Row} (hcall : call = .noteWrite c change) :
      RowStep call now c (some row) (some (change.write now row))
  | pruned {kept : List String} {maxAge : Option Int} {row : Row} (hcall : call = .prune kept maxAge) :
      RowStep call now c (some row) none

/-- A conditional update leaves the row or changes it under its guard. -/
theorem get_updateWhere_cases (t : Rows) (c c' : String) (guard : Row → Bool) (f : Row → Row) :
    (t.updateWhere c guard f).get c' = t.get c' ∨
      c' = c ∧ ∃ row, t.get c = some row ∧ guard row = true ∧ (t.updateWhere c guard f).get c' = some (f row) := by
  rw [KeyedTable.get_updateWhere]
  by_cases hc : c' = c
  · subst hc
    rw [if_pos rfl]
    cases hrow : t.get c' with
    | none => exact .inl rfl
    | some row =>
      by_cases hg : guard row = true
      · exact .inr ⟨rfl, row, rfl, hg, by simp [hg]⟩
      · exact .inl (by simp [hg])
  · rw [if_neg hc]
    exact .inl rfl

theorem get_modify_cases (t : Rows) (c c' : String) (f : Row → Row) :
    (t.modify c f).get c' = t.get c' ∨ c' = c ∧ ∃ row, t.get c = some row ∧ (t.modify c f).get c' = some (f row) := by
  rw [KeyedTable.get_modify]
  by_cases hc : c' = c
  · subst hc
    rw [if_pos rfl]
    cases hrow : t.get c' with
    | none => exact .inl rfl
    | some row => exact .inr ⟨rfl, row, rfl, rfl⟩
  · rw [if_neg hc]
    exact .inl rfl

theorem get_insert_cases (t : Rows) (c c' : String) (row : Row) :
    (t.insert c row).get c' = t.get c' ∨ c' = c ∧ t.get c = none ∧ (t.insert c row).get c' = some row := by
  rw [KeyedTable.get_insert]
  by_cases h : c' = c ∧ t.get c = none
  · rw [if_pos h]
    exact .inr ⟨h.1, h.2, rfl⟩
  · rw [if_neg h]
    exact .inl rfl

theorem get_executeBindPlan (existing : Option Row) (session c c' : String) (now : Int) (t : Rows) :
    (executeBindPlan existing session c now t).2.get c' = t.get c' ∨ c' = c ∧
      ((∃ seen row, existing = some seen ∧ t.get c = some row ∧ sameGuard seen row = true ∧
          (executeBindPlan existing session c now t).2.get c' = some (boundRow seen session now row)) ∨
        (existing = none ∧ t.get c = none ∧
          (executeBindPlan existing session c now t).2.get c' = some (firstRow session now))) := by
  cases existing with
  | some seen =>
    obtain hsame | ⟨hc, row, hrow, hguard, hget⟩ :=
      get_updateWhere_cases t c c' (sameGuard seen) (boundRow seen session now)
    · exact .inl hsame
    · exact .inr ⟨hc, .inl ⟨seen, row, rfl, hrow, hguard, hget⟩⟩
  | none =>
    obtain hsame | ⟨hc, hnone, hget⟩ := get_insert_cases t c c' (firstRow session now)
    · exact .inl hsame
    · exact .inr ⟨hc, .inr ⟨rfl, hnone, hget⟩⟩

theorem getByConversation_row (t : Rows) {c : String} (hc : c ≠ "") :
    (getByConversation t c).map LifecycleState.row = t.get c := by
  rw [getByConversation, if_neg hc, Option.map_map]
  exact Option.map_id'

theorem get_bindTransactionRows (session c' : String) {c : String} (now : Int) (t : Rows) (hc : c ≠ "") :
    (bindTransactionRows session c now t).get c' = t.get c' ∨
      RowStep (.bindTransaction session c) now c' (t.get c') ((bindTransactionRows session c now t).get c') := by
  simp only [bindTransactionRows, getByConversation_row t hc]
  split
  · exact .inl rfl
  · next hother =>
    obtain hsame | ⟨rfl, ⟨seen, row, hseen, hrow, hguard, hget⟩ | ⟨hnone, -, hget⟩⟩ :=
      get_executeBindPlan (t.get c) session c c' now t
    · exact .inl hsame
    · rw [hget]
      rw [hrow] at hseen hother ⊢
      cases hseen
      exact .inr (.boundAtOnce rfl (by simpa [boundTo] using hother))
    · rw [hget, hnone]
      exact .inr (.firstAtOnce rfl)

theorem bindWrite_row (session conversation : String) (attempts : Nat) (existing : Option Row) (now : Int)
    (legacy : List (Option String)) (db : Db) (c : String) :
    ((Call.bindWrite session attempts existing conversation).step now legacy db).2.lifecycle.get c =
      db.lifecycle.get c ∨
      RowStep (.bindWrite session attempts existing conversation) now c (db.lifecycle.get c)
        (((Call.bindWrite session attempts existing conversation).step now legacy db).2.lifecycle.get c) := by
  have hdb : ((Call.bindWrite session attempts existing conversation).step now legacy db).2.lifecycle =
      (executeBindPlan existing session conversation now db.lifecycle).2 := by
    simp only [Call.step]
    split
    · rfl
    · split <;> rfl
  rw [hdb]
  obtain hsame | ⟨rfl, ⟨seen, row, rfl, hrow, hguard, hget⟩ | ⟨rfl, hnone, hget⟩⟩ :=
    get_executeBindPlan existing session conversation c now db.lifecycle
  · exact .inl hsame
  · rw [hrow, hget]
    exact .inr (.bound rfl hguard)
  · rw [hnone, hget]
    exact .inr (.first rfl)

/-- The write of a rollover changes the row it finds now, or inserts one. -/
theorem executeRollover_row (conversation old new : String) (finalized now : Int) (db : Db) (c : String) :
    (executeRollover conversation old new finalized now db.lifecycle).get c = db.lifecycle.get c ∨
      RowStep (.rolloverWrite conversation old new finalized) now c (db.lifecycle.get c)
        ((executeRollover conversation old new finalized now db.lifecycle).get c) := by
  simp only [executeRollover]
  cases hold : db.lifecycle.get conversation with
  | some row =>
    obtain hsame | ⟨rfl, row, hrow, hget⟩ :=
      get_modify_cases db.lifecycle conversation c (rolloverRow old new finalized now)
    · exact .inl hsame
    · simp only [hget]
      rw [hrow]
      exact .inr (.rolledOver rfl)
  | none =>
    obtain hsame | ⟨rfl, hnone, hget⟩ := get_insert_cases db.lifecycle conversation c
      (rolloverRow old new finalized now (firstRow new now))
    · exact .inl hsame
    · simp only [hget]
      rw [hnone]
      exact .inr (.rolledOverFirst rfl)

/-- A publication advances the row that it compared the frontier of, or is refused. -/
theorem publish_row (p : Publication) (now : Int) (legacy : List (Option String)) (db : Db) (c : String) :
    ((Call.publish p).step now legacy db).2.lifecycle.get c = db.lifecycle.get c ∨
      RowStep (.publish p) now c (db.lifecycle.get c) (((Call.publish p).step now legacy db).2.lifecycle.get c) := by
  simp only [Call.step]
  obtain ⟨e, he⟩ | ⟨db', hdb', hcommitted⟩ := publish_cases p legacy now db
  · rw [he]
    exact .inl rfl
  · rw [hdb']
    obtain ⟨row', hrow', hbound, hexpected⟩ := hcommitted.row
    simp only [hcommitted.result]
    obtain hsame | ⟨rfl, row, hrow, hguard, hget⟩ := get_updateWhere_cases db.lifecycle p.conversationId c
      (boundTo p.sessionId) (advancedRow p.coveredEnd now)
    · exact .inl hsame
    · rw [hrow] at hrow'
      cases hrow'
      rw [hrow, hget]
      exact .inr (.published rfl rfl hguard hexpected)

/-- What one statement of a call does to the row of a conversation. -/
theorem step_row (call : Call) (now : Int) (legacy : List (Option String)) (db : Db) (c : String) :
    (call.step now legacy db).2.lifecycle.get c = db.lifecycle.get c ∨
      RowStep call now c (db.lifecycle.get c) ((call.step now legacy db).2.lifecycle.get c) := by
  cases call with
  | bindRead session attempts conversation =>
    left
    simp only [Call.step]
    split <;> rfl
  | bindWrite session attempts existing conversation =>
    exact bindWrite_row session conversation attempts existing now legacy db c
  | bindTransaction session conversation =>
    simp only [Call.step]
    cases hstate : getByConversation (bindTransactionRows session conversation now db.lifecycle) conversation with
    | none => exact .inl rfl
    | some state =>
      have hc : conversation ≠ "" := by
        intro he
        simp [getByConversation, he] at hstate
      exact get_bindTransactionRows session c now db.lifecycle hc
  | rebind session conversation =>
    obtain hsame | ⟨rfl, row, hrow, hguard, hget⟩ := get_updateWhere_cases db.lifecycle conversation c
      (fun row => ownFinalized row session) _
    · exact .inl hsame
    · right
      simp only [Call.step, executeRebind]
      rw [hrow, hget]
      exact .rebound rfl hguard
  | finalize conversation session frontier =>
    simp only [Call.step]
    split
    · exact .inl rfl
    · obtain hsame | ⟨rfl, row, hrow, hget⟩ :=
        get_modify_cases db.lifecycle conversation c (finalizedRow session frontier now)
      · exact .inl hsame
      · rw [hrow, hget]
        exact .inr (.finalized rfl)
  | rolloverRead conversation old new frontier =>
    left
    simp only [Call.step]
    split <;> rfl
  | rolloverWrite conversation old new finalized => exact executeRollover_row conversation old new finalized now db c
  | advanceRead conversation session frontier =>
    left
    simp only [Call.step]
    split
    · rfl
    · split <;> rfl
  | advanceWrite conversation session frontier =>
    obtain hsame | ⟨rfl, row, hrow, hguard, hget⟩ := get_updateWhere_cases db.lifecycle conversation c
      (boundTo session) (advancedRow frontier now)
    · exact .inl hsame
    · right
      simp only [Call.step]
      rw [hrow, hget]
      exact .advanced rfl hguard
  | noteRead conversation change =>
    left
    simp only [Call.step]
    split <;> rfl
  | noteWrite conversation change =>
    obtain hsame | ⟨rfl, row, hrow, hget⟩ :=
      get_modify_cases db.lifecycle conversation c fun row => change.write now row
    · exact .inl hsame
    · right
      simp only [Call.step]
      rw [hrow, hget]
      exact .noted rfl
  | prune kept maxAge =>
    simp only [Call.step, KeyedTable.get_delete]
    split
    · cases hrow : db.lifecycle.get c with
      | none => exact .inl rfl
      | some row => exact .inr (.pruned rfl)
    · exact .inl rfl
  | append m => exact .inl rfl
  | publish p => exact publish_row p now legacy db c
  | fetch conversation required =>
    left
    simp only [Call.step]
    split <;> rfl
  | returned state => exact .inl rfl
  | raised => exact .inl rfl

theorem next_row (s : System) (e : Event) (c : String) :
    (s.next e).db.lifecycle.get c = s.db.lifecycle.get c ∨ ∃ i now, e = .step i now ∧
      RowStep (s.processes i).call now c (s.db.lifecycle.get c) ((s.next e).db.lifecycle.get c) := by
  cases e with
  | start i request =>
    left
    simp only [System.next]
    split <;> rfl
  | step i now =>
    cases step_row (s.processes i).call now ((s.processes i).legacyIds s.db) s.db c with
    | inl hsame => exact .inl hsame
    | inr hstep => exact .inr ⟨i, now, rfl, hstep⟩

end Lifecycle
