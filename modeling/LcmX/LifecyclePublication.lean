import Mathlib.Data.List.DropRight
import Mathlib.Data.List.Sort
import LcmX.Lib.Fallible
import LcmX.LifecycleStore

/-!
# Publishing a leaf

`SummaryDAG.add_node` with `stage_compaction_publication` as its `before_commit`.
Node, provenance and frontier are one immediate transaction: the callback sees
the inserted node, and any error rolls everything back.
-/
namespace Lifecycle

open Fallible

/-- `str.isspace` of one character. -/
def isSpace (c : Char) : Bool :=
  let n := c.toNat
  (0x09 ≤ n && n ≤ 0x0d) || (0x1c ≤ n && n ≤ 0x20) || n = 0x85 || n = 0xa0 || n = 0x1680 ||
    (0x2000 ≤ n && n ≤ 0x200a) || n = 0x2028 || n = 0x2029 || n = 0x202f || n = 0x205f || n = 0x3000

def strip (s : String) : String := String.ofList ((s.toList.dropWhile isSpace).rdropWhile isSpace)

/-- `str(value or "").strip()`. -/
def normalizeConversationId (value : Option String) : String := strip (value.getD "")

/-- The columns that a copy and its twin must share. -/
structure Payload where
  content : Option String
  role : String
  toolCallId : Option String
  toolCalls : Option String
  toolName : Option String
deriving DecidableEq, Repr

structure Message extends Payload where
  sessionId : String
  conversationId : Option String
deriving DecidableEq, Repr

inductive SourceType where
  | messages
  | nodes
deriving DecidableEq, Repr

structure SummaryNode where
  nodeId : Int
  sessionId : String
  summary : String
  sourceIds : List Int
  sourceType : SourceType
deriving DecidableEq, Repr

structure Provenance where
  nodeId : Int
  escalationLevel : Int
  model : String
deriving DecidableEq, Repr

/-- The tables that the lifecycle writers share; the counters are the AUTOINCREMENT sequences. -/
structure Db where
  lifecycle : Rows
  messages : KeyedTable Int Message
  lastStoreId : Int
  nodes : List SummaryNode
  lastNodeId : Int
  provenance : List Provenance

/-- The arguments of one publication; `covered` are the message ids of the node. -/
structure Publication where
  conversationId : String
  sessionId : String
  summary : String
  escalationLevel : Option Int
  model : String
  expectedFrontierStoreId : Int
  covered : List Int
  excluded : List Int
  filterExclusionProofs : List (Int × Option String)
  carriedRanges : List (String × Int × Int)
  copyExclusionProofs : List (Int × Int)
deriving DecidableEq, Repr

inductive PublicationError where
  | noCoverage
  | overlap
  | copyNotExcluded
  | ownershipChanged
  | filterChanged
  | copyChanged
  | notContiguous (expectedFrontier : Int) (authoritative covered excluded : List Int)
  | claimed
  | noLifecycle
  | bindingChanged
  | generationChanged (expected actual : Int)
deriving DecidableEq, Repr

def sortedSet (l : List Int) : List Int := l.dedup.mergeSort (· ≤ ·)

namespace Publication

variable (p : Publication)

def expectedFrontier : Int := max 0 p.expectedFrontierStoreId

def allCoveredIds : List Int := sortedSet (p.covered.filter (0 < ·))

/-- `max(expected_frontier, all_covered_ids[-1])`. -/
def coveredEnd : Int := max p.expectedFrontier (p.allCoveredIds.getLast?.getD 0)

def coveredIds : List Int := p.allCoveredIds.filter (p.expectedFrontier < ·)

def excludedIds : List Int := sortedSet (p.excluded.filter fun id => p.expectedFrontier < id ∧ id ≤ p.coveredEnd)

def copyProofs : List (Int × Int) :=
  p.copyExclusionProofs.filter fun c => p.expectedFrontier < c.1 ∧ c.1 ≤ p.coveredEnd

def allowedCarryRanges : List (String × Int × Int) :=
  p.carriedRanges.filter fun r => r.1 ≠ "" ∧ 0 ≤ r.2.1 ∧ r.2.1 < r.2.2

def rowIsOwned (id : Int) (owner : String) : Bool :=
  owner = p.sessionId ∨ ∃ r ∈ p.allowedCarryRanges, owner = r.1 ∧ r.2.1 < id ∧ id ≤ r.2.2

def snapshotIds : List Int :=
  sortedSet (p.allCoveredIds ++ p.excludedIds ++ p.filterExclusionProofs.map Prod.fst ++ p.copyProofs.map Prod.snd)

/-- The ranges of the ownership query. -/
def ownedRanges : List (String × Int × Int) :=
  (p.sessionId, p.expectedFrontier, p.coveredEnd) ::
    (p.allowedCarryRanges.map fun r => (r.1, max p.expectedFrontier r.2.1, min p.coveredEnd r.2.2)).filter
      fun r => r.2.1 < r.2.2

end Publication

/-- The stored conversation ids that are not in normal form; `None` is one of them. -/
def legacyConversationIds (db : Db) : List (Option String) :=
  (db.messages.rows.map fun m => m.2.conversationId).filter fun v => v.all fun s => s ≠ strip s

/-- `owned_conversation_values`, as the values that the clause lets through. -/
def ownedConversation (legacy : List (Option String)) (conversation : String) (value : Option String) : Bool :=
  value = some (strip conversation) ∨ value = some "" ∨
    (value ∈ legacy ∧ (normalizeConversationId value = strip conversation ∨ normalizeConversationId value = ""))

def authoritativeIds (p : Publication) (legacy : List (Option String)) (db : Db) : List Int :=
  sortedSet ((db.messages.rows.filter fun m =>
    (∃ r ∈ p.ownedRanges, m.2.sessionId = r.1 ∧ r.2.1 < m.1 ∧ m.1 ≤ r.2.2) ∧
      ownedConversation legacy p.conversationId m.2.conversationId).map Prod.fst)

/-- The message ids that nodes claim, of every session. -/
def nodeCovered (db : Db) (id : Int) : Bool :=
  ∃ node ∈ db.nodes, node.sourceType = .messages ∧ id ∈ node.sourceIds

/-- A message-sourced node of the session, other than the published one, that claims one of the ids. -/
def claimedBy (db : Db) (session : String) (nodeId : Int) (ids : List Int) : Bool :=
  ∃ node ∈ db.nodes, node.sessionId = session ∧ node.sourceType = .messages ∧ node.nodeId ≠ nodeId ∧
    ∃ id ∈ node.sourceIds, id ∈ ids

/-- The checks on the sources, made on the snapshot of their rows. -/
def checkSources (p : Publication) (db : Db) : Except PublicationError Unit :=
  if p.allCoveredIds = [] then .error .noCoverage
  else if ∃ id ∈ p.coveredIds, id ∈ p.excludedIds then .error .overlap
  else if ∃ c ∈ p.copyProofs, c.1 ∉ p.excludedIds then .error .copyNotExcluded
  else if ∃ id ∈ p.snapshotIds, ¬ (db.messages.get id).any (fun m => p.rowIsOwned id m.sessionId) then
    .error .ownershipChanged
  else if ∃ id ∈ p.snapshotIds, ¬ (db.messages.get id).any
      (fun m => normalizeConversationId m.conversationId ∈ ["", p.conversationId]) then
    .error .ownershipChanged
  else if ∃ proof ∈ p.filterExclusionProofs, (db.messages.get proof.1).map (fun m => m.content) ≠ some proof.2 then
    .error .filterChanged
  else if ∃ c ∈ p.copyProofs, c.2 ≥ c.1 ∨
      (db.messages.get c.1).map Message.toPayload ≠ (db.messages.get c.2).map Message.toPayload ∨
        ¬ nodeCovered db c.2 then
    .error .copyChanged
  else .ok ()

/-- `stage_frontier_advance`: the conditional `UPDATE` and its error paths. -/
def stageFrontierAdvance (conversation session : String) (frontier now : Int) (db : Db) : Except PublicationError Db :=
  if db.lifecycle.matches? conversation (boundTo session) then
    .ok { db with lifecycle := db.lifecycle.updateWhere conversation (boundTo session) (advancedRow frontier now) }
  else if (db.lifecycle.get conversation).isNone then .error .noLifecycle
  else .error .bindingChanged

def stageCompactionPublication (p : Publication) (legacy : List (Option String)) (nodeId now : Int) (db : Db) :
    Except PublicationError Db := do
  checkSources p db
  let authoritative := authoritativeIds p legacy db
  if authoritative ≠ (p.coveredIds ++ p.excludedIds).mergeSort (· ≤ ·) then
    .error (.notContiguous p.expectedFrontier authoritative p.coveredIds p.excludedIds)
  else if claimedBy db p.sessionId nodeId p.allCoveredIds then .error .claimed
  else
    match db.lifecycle.get p.conversationId with
    | none => .error .noLifecycle
    | some row =>
      if row.currentSessionId.getD "" ≠ p.sessionId then .error .bindingChanged
      else if row.currentFrontierStoreId ≠ p.expectedFrontier then
        .error (.generationChanged p.expectedFrontier row.currentFrontierStoreId)
      else stageFrontierAdvance p.conversationId p.sessionId p.coveredEnd now db

def Publication.node (p : Publication) (nodeId : Int) : SummaryNode where
  nodeId := nodeId
  sessionId := p.sessionId
  summary := p.summary
  sourceIds := p.covered
  sourceType := .messages

/-- `INSERT OR REPLACE INTO summary_node_provenance`, when a level is given. -/
def Publication.record (p : Publication) (nodeId : Int) (provenance : List Provenance) : List Provenance :=
  match p.escalationLevel with
  | none => provenance
  | some level => (provenance.filter fun r => r.nodeId ≠ nodeId) ++ [⟨nodeId, level, p.model⟩]

/-- The database that the callback of `add_node` sees. -/
def Publication.staged (p : Publication) (db : Db) : Db :=
  { db with
    nodes := db.nodes ++ [p.node (db.lastNodeId + 1)]
    lastNodeId := db.lastNodeId + 1
    provenance := p.record (db.lastNodeId + 1) db.provenance }

/-- The operation that `add_node` runs inside the transaction. -/
def insertNode (p : Publication) (legacy : List (Option String)) (now : Int) (db : Db) : Except PublicationError Db :=
  stageCompactionPublication p legacy (db.lastNodeId + 1) now (p.staged db)

/-- `add_node`: commit, or roll back and raise. -/
def publish (p : Publication) (legacy : List (Option String)) (now : Int) (db : Db) : Option PublicationError × Db :=
  match insertNode p legacy now db with
  | .ok db' => (none, db')
  | .error e => (some e, db)

/-- The message insert of the store, which writes the conversation id in normal form. -/
def appendMessage (m : Message) (db : Db) : Db :=
  { db with
    messages := db.messages.insert (db.lastStoreId + 1)
      { m with conversationId := some (normalizeConversationId m.conversationId) }
    lastStoreId := db.lastStoreId + 1 }

/-! ## What a committed publication has proved -/

structure Committed (p : Publication) (legacy : List (Option String)) (now : Int) (db db' : Db) : Prop where
  sources : checkSources p (p.staged db) = .ok ()
  contiguous : authoritativeIds p legacy db = (p.coveredIds ++ p.excludedIds).mergeSort (· ≤ ·)
  unclaimed : claimedBy (p.staged db) p.sessionId (db.lastNodeId + 1) p.allCoveredIds = false
  row : ∃ row, db.lifecycle.get p.conversationId = some row ∧ boundTo p.sessionId row = true ∧
    row.currentFrontierStoreId = p.expectedFrontier
  result : db' = { p.staged db with
    lifecycle := db.lifecycle.updateWhere p.conversationId (boundTo p.sessionId) (advancedRow p.coveredEnd now) }

theorem insertNode_ok {p : Publication} {legacy : List (Option String)} {now : Int} {db db' : Db}
    (h : insertNode p legacy now db = .ok db') : Committed p legacy now db db' := by
  simp only [insertNode, stageCompactionPublication, bind_ok] at h
  obtain ⟨⟨⟩, hsources, h⟩ := h
  split at h
  · cases h
  · next hcontiguous =>
    split at h
    · cases h
    · next hclaimed =>
      split at h
      · cases h
      · next row hrow =>
        split at h
        · cases h
        · next hsession =>
          split at h
          · cases h
          · next hfrontier =>
            unfold stageFrontierAdvance at h
            split at h
            · next hmatch =>
              cases h
              have hrow' : db.lifecycle.get p.conversationId = some row := hrow
              have hbound : boundTo p.sessionId row = true := by
                simpa [KeyedTable.matches?, hrow] using hmatch
              exact ⟨hsources, not_not.mp hcontiguous, by simpa using hclaimed,
                ⟨row, hrow', hbound, not_not.mp hfrontier⟩, rfl⟩
            · split at h <;> cases h

/-- A publication commits as a whole or changes nothing. -/
theorem publish_cases (p : Publication) (legacy : List (Option String)) (now : Int) (db : Db) :
    (∃ e, publish p legacy now db = (some e, db)) ∨
      ∃ db', publish p legacy now db = (none, db') ∧ Committed p legacy now db db' := by
  unfold publish
  cases h : insertNode p legacy now db with
  | ok db' => exact .inr ⟨db', rfl, insertNode_ok h⟩
  | error e => exact .inl ⟨e, rfl⟩

end Lifecycle
