import LcmX.AssertionPrepare
import LcmX.Lib.KeyedTable

/-!
# The assertion store

Receipts, assertions and relations over the messages, with the guards and the triggers of
the schema. A write runs in one transaction, and one that raises is rolled back.
-/
namespace Assertion

structure Message where
  sessionId : Text
  source : Option Text
  role : Text
  content : Option Text
  timestamp : Rat
  observedAt : Option Rat
  deriving DecidableEq, Repr

structure Receipt where
  sourceSessionId : Text
  sourceRole : Text
  sourceName : Text
  sourceTimestamp : Rat
  candidateDigest : Text
  assertionCount : Nat
  relationCount : Nat
  processedAt : Rat
  invalidated : Option (Rat × Text)
  deriving DecidableEq, Repr

structure StoredAssertion where
  payload : AssertionPayload
  createdAt : Rat
  deriving DecidableEq, Repr

structure StoredRelation where
  payload : RelationPayload
  createdAt : Rat
  deriving DecidableEq, Repr

structure Db where
  messages : KeyedTable Int Message
  sources : KeyedTable Key Receipt
  assertions : KeyedTable Text StoredAssertion
  relations : KeyedTable Text StoredRelation

/-- The schema over a store of messages. -/
def ensureTables (messages : KeyedTable Int Message) : Db :=
  ⟨messages, KeyedTable.empty, KeyedTable.empty, KeyedTable.empty⟩

/-! ## Guards and constraints -/

/-- The text that the length of SQL goes by. -/
def sqlText (value : Text) : Text := value.takeWhile fun c => c ≠ Char.ofNat 0

def sqlTrim (value : Text) : Text := PyText.stripBy (fun c => c = ' ') value

def isActive (db : Db) (key : Key) : Bool := (db.sources.get key).any fun receipt => receipt.invalidated.isNone

/-- The active receipt of a source and a version. -/
def currentReceipt (db : Db) (storeId : Int) (version : Text) : Option (Key × Receipt) :=
  db.sources.rows.find? fun p => p.1.storeId = storeId ∧ p.1.version = version ∧ p.2.invalidated.isNone

/-- An assertion under an active receipt. -/
def activeEndpoint (db : Db) (assertionId : Text) : Bool :=
  (db.assertions.get assertionId).any fun a => isActive db a.payload.key

/-- `lcm_assertion_source_insert_guard`. -/
def sourceGuard (db : Db) (key : Key) (receipt : Receipt) : Bool :=
  (db.messages.get key.storeId).any fun m =>
    m.sessionId = receipt.sourceSessionId ∧ m.role = receipt.sourceRole ∧ m.source = some receipt.sourceName ∧
      m.observedAt.getD m.timestamp = receipt.sourceTimestamp

/-- The span of a new row is the one of its message, under an active receipt. -/
def spanGuard (db : Db) (key : Key) (start stop : Int) (quote : Text) : Bool :=
  isActive db key ∧ (db.messages.get key.storeId).any fun m =>
    stop ≤ (sqlText (m.content.getD [])).length ∧
      PyText.slice (sqlText (m.content.getD [])) start.toNat stop.toNat = quote

def digestCheck (value : Text) : Bool := (sqlText value).length = 64

def enforce (ok : Bool) (message : String) : Except Error Unit := if ok then .ok () else .error (.integrity message)

def insertReceipt (key : Key) (receipt : Receipt) (db : Db) : Except Error Db := do
  enforce (sourceGuard db key receipt) "assertion source row is missing or metadata changed"
  enforce (1 ≤ (sqlText (sqlTrim key.version)).length ∧ (sqlText (sqlTrim key.version)).length ≤ maxVersionChars ∧
    digestCheck key.contentSha256 ∧ digestCheck receipt.candidateDigest)
      "CHECK constraint failed: lcm_assertion_sources"
  enforce ((db.sources.get key).isNone ∧ (currentReceipt db key.storeId key.version).isNone)
    "UNIQUE constraint failed: lcm_assertion_sources"
  pure { db with sources := db.sources.insert key receipt }

def insertAssertion (clock : Text → Rat) (db : Db) (row : AssertionRow) : Except Error Db := do
  enforce (spanGuard db row.payload.key row.payload.sourceSpanStart row.payload.sourceSpanEnd row.payload.sourceQuote)
    "assertion source provenance mismatch"
  enforce (digestCheck row.assertionId ∧ digestCheck row.payload.key.contentSha256 ∧
    sqlText (sqlTrim row.payload.subjectKey) ≠ [] ∧
    sqlText (sqlTrim row.payload.predicateKey) ≠ []) "CHECK constraint failed: lcm_assertions"
  enforce ((db.assertions.get row.assertionId).isNone) "UNIQUE constraint failed: lcm_assertions.assertion_id"
  pure { db with assertions := db.assertions.insert row.assertionId ⟨row.payload, clock row.assertionId⟩ }

def insertRelation (clock : Text → Rat) (db : Db) (row : RelationRow) : Except Error Db := do
  require (activeEndpoint db row.payload.fromAssertionId)
    s!"relation endpoint {String.ofList row.payload.fromAssertionId} is missing or invalidated"
  require (activeEndpoint db row.payload.toAssertionId)
    s!"relation endpoint {String.ofList row.payload.toAssertionId} is missing or invalidated"
  enforce (spanGuard db row.payload.key row.payload.sourceSpanStart row.payload.sourceSpanEnd row.payload.sourceQuote)
    "assertion relation provenance mismatch"
  enforce (digestCheck row.relationId ∧ digestCheck row.payload.key.contentSha256)
    "CHECK constraint failed: lcm_assertion_relations"
  enforce ((db.relations.get row.relationId).isNone) "UNIQUE constraint failed: lcm_assertion_relations.relation_id"
  pure { db with relations := db.relations.insert row.relationId ⟨row.payload, clock row.relationId⟩ }

/-! ## Publication -/

/-- A transaction that commits its result, or rolls back. -/
def inTransaction {α : Type} (body : Db → Except Error (Db × α)) (db : Db) : Db × Except Error α :=
  match body db with
  | .ok (db', result) => (db', .ok result)
  | .error error => (db, .error error)

structure PublishResult where
  sourceStoreId : Int
  extractionVersion : Text
  sourceContentSha256 : Text
  candidateDigest : Text
  assertionIds : List Text
  relationIds : List Text
  alreadyCurrent : Bool
  deriving DecidableEq, Repr

def Prepared.result (p : Prepared) (snapshot : SourceSnapshot) (alreadyCurrent : Bool) : PublishResult :=
  ⟨snapshot.storeId, p.version, snapshot.contentSha256, p.candidateDigest, p.assertions.map AssertionRow.assertionId,
    p.relations.map RelationRow.relationId, alreadyCurrent⟩

/-- What a receipt says of the output of its publication. -/
def Receipt.records (receipt : Receipt) (p : Prepared) : Prop :=
  receipt.candidateDigest = p.candidateDigest ∧ receipt.assertionCount = p.assertions.length ∧
    receipt.relationCount = p.relations.length

instance (receipt : Receipt) (p : Prepared) : Decidable (receipt.records p) := by
  unfold Receipt.records
  infer_instance

/-- The update that takes a receipt back into use. -/
def Receipt.reactivate (snapshot : SourceSnapshot) (now : Rat) (receipt : Receipt) : Receipt :=
  { receipt with
    sourceSessionId := snapshot.sessionId
    sourceRole := snapshot.role
    sourceName := snapshot.source
    sourceTimestamp := snapshot.timestamp
    processedAt := now
    invalidated := none }

def Prepared.receipt (p : Prepared) (snapshot : SourceSnapshot) (now : Rat) : Receipt :=
  ⟨snapshot.sessionId, snapshot.role, snapshot.source, snapshot.timestamp, p.candidateDigest,
    p.assertions.length, p.relations.length, now, none⟩

/-- `_snapshot_from_row`. -/
def snapshotFromRow (host : Host) (storeId : Int) (m : Message) : SourceSnapshot :=
  ⟨storeId, m.sessionId, m.source.getD [], m.role, m.content.getD [], m.observedAt.getD m.timestamp,
    host.sha256 (m.content.getD [])⟩

/-- The inserts of a new publication. -/
def insertOutput (snapshot : SourceSnapshot) (p : Prepared) (now : Rat) (clock : Text → Rat)
    (db : Db) : Except Error Db := do
  let db ← insertReceipt (snapshot.key p.version) (p.receipt snapshot now) db
  let db ← p.assertions.foldlM (insertAssertion clock) db
  p.relations.foldlM (insertRelation clock) db

/-- The transaction of `publish_source`. -/
def publishTransaction (host : Host) (snapshot : SourceSnapshot) (p : Prepared) (now : Rat)
    (clock : Text → Rat) (db : Db) :
    Except Error (Db × PublishResult) :=
  match db.messages.get snapshot.storeId with
  | none => .error (.stale s!"source store_id {snapshot.storeId} was deleted before publication")
  | some m =>
    if snapshotFromRow host snapshot.storeId m ≠ snapshot then
      .error (.stale s!"source store_id {snapshot.storeId} changed before publication")
    else match currentReceipt db snapshot.storeId p.version with
      | some (key, receipt) =>
        if key.contentSha256 = snapshot.contentSha256 ∧ receipt.records p then .ok (db, p.result snapshot true)
        else .error
          (.conflict
          "different assertion output already exists for this source hash and extraction version; bump the extraction version")
      | none =>
        match (db.sources.get (snapshot.key p.version)).filter fun receipt => receipt.invalidated.isSome with
        | some receipt =>
          if receipt.records p then
            .ok ({ db with sources := db.sources.modify (snapshot.key p.version) (Receipt.reactivate
              snapshot now) }, p.result snapshot true)
          else .error
            (.conflict
            "historical output differs for this source hash and extraction version; bump the extraction version")
        | none => do
          let db ← insertOutput snapshot p now clock db
          pure (db, p.result snapshot false)

/-- `publish_source`. -/
def publishSource (host : Host) (snapshot : SourceSnapshot) (candidates : List AssertionCandidate)
    (relations : List AssertionRelationCandidate)
    (extractionVersion : Text) (now : Rat) (clock : Text → Rat) (db : Db) : Db × Except Error PublishResult :=
  match prepare host snapshot candidates relations extractionVersion with
  | .error error => (db, .error error)
  | .ok p => inTransaction (publishTransaction host snapshot p now clock) db

/-! ## Invalidation and removal -/

def invalidateWhere (storeId : Int) (timestamp : Rat) (reason : Text) (db : Db) : Db :=
  { db with
    sources := db.sources.updateAll (fun key receipt => key.storeId = storeId ∧ receipt.invalidated.isNone)
      fun receipt => { receipt with invalidated := some (timestamp, reason) } }

/-- `invalidate_source`. -/
def invalidateSource (storeId : Int) (reason : Text) (invalidatedAt : Option Number) (now : Rat)
    (db : Db) : Db × Except Error Nat :=
  match validatedText reason "invalidation reason" false, finiteNumber invalidatedAt "invalidated_at" with
  | .error error, _ => (db, .error error)
  | .ok _, .error error => (db, .error error)
  | .ok reason, .ok timestamp =>
    let changed := (db.sources.rows.filter fun p => p.1.storeId = storeId ∧ p.2.invalidated.isNone).length
    if changed = 0 ∨ sqlText (sqlTrim reason) ≠ [] then
      (invalidateWhere storeId (timestamp.getD now) reason db, .ok changed)
    else (db, .error (.integrity "CHECK constraint failed: lcm_assertion_sources"))

/-- A receipt is deleted, and `lcm_assertion_source_delete` takes its rows and what points to them. -/
def deleteReceipt (db : Db) (key : Key) : Db :=
  let owned := fun assertionId => (db.assertions.get assertionId).any fun a => a.payload.key = key
  { db with
    sources := db.sources.delete fun k => k = key
    relations := db.relations.delete fun relationId => (db.relations.get relationId).any fun r =>
      r.payload.key = key ∨ owned r.payload.fromAssertionId ∨ owned r.payload.toAssertionId
    assertions := db.assertions.delete owned }

/-- `remove_version`, with the counts of sources, assertions and relations. -/
def removeVersion (extractionVersion : Text) (db : Db) : Db × Except Error (Nat × Nat × Nat) :=
  match validatedVersion extractionVersion with
  | .error error => (db, .error error)
  | .ok version =>
    let keys := (db.sources.rows.map Prod.fst).filter fun key => key.version = version
    (keys.foldl deleteReceipt db,
      .ok (keys.length, (db.assertions.rows.filter fun p => p.2.payload.key.version = version).length,
        (db.relations.rows.filter fun p => p.2.payload.key.version = version).length))

/-! ## The messages -/

/-- A new row of the messages. -/
def insertMessage (storeId : Int) (message : Message) (db : Db) : Db :=
  { db with messages := db.messages.insert storeId message }

/-- An update of a row, with `lcm_assertion_message_update`. -/
def updateMessage (storeId : Int) (message : Message) (now : Rat) (db : Db) : Db :=
  match db.messages.get storeId with
  | none => db
  | some old =>
    let db := { db with messages := db.messages.modify storeId fun _ => message }
    if old.content ≠ message.content then invalidateWhere storeId now "source_updated".toList db else db

/-- A deletion of a row, with `lcm_assertion_message_delete`. -/
def deleteMessage (storeId : Int) (now : Rat) (db : Db) : Db :=
  match db.messages.get storeId with
  | none => db
  | some _ => invalidateWhere storeId now "source_deleted".toList
        { db with messages := db.messages.delete fun id => id = storeId }

/-! ## Runs -/

inductive Op where
  | publish (snapshot : SourceSnapshot) (candidates : List AssertionCandidate)
      (relations : List AssertionRelationCandidate)
      (extractionVersion : Text) (now : Rat) (clock : Text → Rat)
  | invalidate (storeId : Int) (reason : Text) (invalidatedAt : Option Number) (now : Rat)
  | remove (extractionVersion : Text)
  | insertMessage (storeId : Int) (message : Message)
  | updateMessage (storeId : Int) (message : Message) (now : Rat)
  | deleteMessage (storeId : Int) (now : Rat)

def Op.apply (host : Host) (db : Db) : Op → Db
  | .publish snapshot candidates relations extractionVersion now clock =>
    (publishSource host snapshot candidates relations extractionVersion now clock db).1
  | .invalidate storeId reason invalidatedAt now => (invalidateSource storeId reason invalidatedAt now db).1
  | .remove extractionVersion => (removeVersion extractionVersion db).1
  | .insertMessage storeId message => Assertion.insertMessage storeId message db
  | .updateMessage storeId message now => Assertion.updateMessage storeId message now db
  | .deleteMessage storeId now => Assertion.deleteMessage storeId now db

/-- The transactions of all connections, one after another. -/
inductive Reaches (host : Host) : Db → Prop
  | start (messages : KeyedTable Int Message) : Reaches host (ensureTables messages)
  | step {db : Db} (op : Op) (run : Reaches host db) : Reaches host (op.apply host db)

end Assertion
