import LcmX.AssertionSteps

/-!
# The publication invariant

One receipt of a source and a version is active, and it is for the content that the message
has. A receipt keeps its digest, and its assertions, until its version is removed.
-/
namespace Assertion

structure Coherent (host : Host) (db : Db) : Prop where
  single : ∀ key key' receipt receipt', db.sources.get key = some receipt →
    db.sources.get key' = some receipt' → receipt.invalidated = none →
    receipt'.invalidated = none → key.storeId = key'.storeId → key.version = key'.version → key = key'
  current : ∀ key receipt, db.sources.get key = some receipt → receipt.invalidated = none →
    ∃ m, db.messages.get key.storeId = some m ∧ key.contentSha256 = host.sha256 (m.content.getD [])

theorem coherent_start (host : Host) (messages : KeyedTable Int Message) : Coherent host (ensureTables messages) :=
  ⟨fun _ _ _ _ h => (nomatch h), fun _ _ h => (nomatch h)⟩

section

variable {host : Host} {db db' : Db}

/-- Where every active receipt was active before, nothing is lost. -/
theorem Coherent.weaken (hc : Coherent host db)
    (hmessages : ∀ key receipt, db'.sources.get key = some receipt → receipt.invalidated = none →
      ∀ m, db.messages.get key.storeId = some m → ∃ m', db'.messages.get key.storeId = some m' ∧ m'.content = m.content)
    (hactive : ∀ key receipt, db'.sources.get key = some receipt → receipt.invalidated = none →
      ∃ old, db.sources.get key = some old ∧ old.invalidated = none) : Coherent host db' := by
  refine ⟨fun key key' receipt receipt' hget hget' hmark hmark' hstore hversion => ?_, fun key receipt hget hmark => ?_⟩
  · obtain ⟨old, hold, holdMark⟩ := hactive key receipt hget hmark
    obtain ⟨old', hold', holdMark'⟩ := hactive key' receipt' hget' hmark'
    exact hc.single key key' old old' hold hold' holdMark holdMark' hstore hversion
  · obtain ⟨old, hold, holdMark⟩ := hactive key receipt hget hmark
    obtain ⟨m, hm, hsha⟩ := hc.current key old hold holdMark
    obtain ⟨m', hm', hcontent⟩ := hmessages key receipt hget hmark m hm
    exact ⟨m', hm', by rw [hsha, hcontent]⟩

/-- One key becomes active, where its source and version had no active receipt. -/
theorem Coherent.activate (hc : Coherent host db) (key : Key) {m : Message} (hmessages : db'.messages = db.messages)
    (hm : db.messages.get key.storeId = some m) (hsha : key.contentSha256 = host.sha256 (m.content.getD []))
    (hnone : ∀ k receipt, db.sources.get k = some receipt → k.storeId = key.storeId →
      k.version = key.version → receipt.invalidated ≠ none)
    (hother : ∀ k, k ≠ key → db'.sources.get k = db.sources.get k) : Coherent host db' := by
  refine ⟨fun k k' receipt receipt' hget hget' hmark hmark' hstore hversion => ?_, fun k receipt hget hmark => ?_⟩
  · by_cases hk : k = key
    · by_cases hk' : k' = key
      · rw [hk, hk']
      · rw [hother k' hk'] at hget'
        exact absurd hmark' (hnone k' receipt' hget' (by rw [← hstore, hk]) (by rw [← hversion, hk]))
    · rw [hother k hk] at hget
      by_cases hk' : k' = key
      · exact absurd hmark (hnone k receipt hget (by rw [hstore, hk']) (by rw [hversion, hk']))
      · rw [hother k' hk'] at hget'
        exact hc.single k k' receipt receipt' hget hget' hmark hmark' hstore hversion
  · rw [hmessages]
    by_cases hk : k = key
    · subst hk
      exact ⟨m, hm, hsha⟩
    · rw [hother k hk] at hget
      exact hc.current k receipt hget hmark

theorem invalidate_active {storeId : Int} {timestamp : Rat} {reason : Text} {key : Key} {receipt : Receipt}
    (hget : (invalidateWhere storeId timestamp reason db).sources.get key = some receipt)
    (hmark : receipt.invalidated = none) :
    db.sources.get key = some receipt ∧ key.storeId ≠ storeId := by
  rw [get_invalidateWhere, Option.map_eq_some_iff] at hget
  obtain ⟨old, hold, rfl⟩ := hget
  split at hmark
  · cases hmark
  · rename_i hcond
    refine ⟨?_, fun hstore => hcond ⟨hstore, by rw [hmark]; rfl⟩⟩
    rw [if_neg hcond]
    exact hold

theorem Coherent.invalidate (hc : Coherent host db) (storeId : Int) (timestamp : Rat) (reason : Text) :
    Coherent host (invalidateWhere storeId timestamp reason db) :=
  hc.weaken (fun _ _ _ _ m hm => ⟨m, hm, rfl⟩) fun _ receipt hget hmark =>
    ⟨receipt, (invalidate_active hget hmark).1, hmark⟩

variable {snapshot : SourceSnapshot} {p : Prepared} {now : Rat} {clock : Text → Rat} {alreadyCurrent : Bool}

theorem no_current (hcurrent : currentReceipt db snapshot.storeId p.version = none) :
    ∀ k receipt, db.sources.get k = some receipt → k.storeId = (snapshot.key p.version).storeId →
      k.version = (snapshot.key p.version).version →
      receipt.invalidated ≠ none := by
  intro k receipt hget hstore hversion hmark
  have hcurrent' : currentReceipt db k.storeId k.version = none := by
    rw [hstore, hversion]
    exact hcurrent
  have hsome := currentReceipt_none k hcurrent' hget
  rw [hmark] at hsome
  cases hsome

theorem Coherent.publish (hc : Coherent host db)
    (hkeys : ∀ row ∈ p.assertions, row.payload.key = snapshot.key p.version)
    (hsnapshot : ∃ m, db.messages.get snapshot.storeId = some m ∧ snapshotFromRow host snapshot.storeId m = snapshot)
    (hp : Published host snapshot p now clock db db' alreadyCurrent) : Coherent host db' := by
  obtain ⟨m, hm, hsame⟩ := hsnapshot
  have hsha : (snapshot.key p.version).contentSha256 = host.sha256 (m.content.getD []) := by
    rw [← hsame]
    rfl
  cases hp with
  | same receipt hget hactive hrecords hdb =>
    rw [hdb]
    exact hc
  | reactivated receipt hcurrent hget hrecords hdb =>
    subst hdb
    exact hc.activate (snapshot.key p.version) rfl hm hsha
      (no_current hcurrent) fun k hk => KeyedTable.get_modify_of_ne _ _ hk
  | inserted hcurrent hget hinsert =>
    have hins := insertOutput_inserted hkeys hinsert
    refine hc.activate (snapshot.key p.version) hins.messages hm hsha (no_current hcurrent) fun k hk => ?_
    rw [hins.sources, if_neg hk]

/-- A call of `publish_source` either raises, with the store as it was, or publishes. -/
theorem publish_cases (host : Host) (snapshot : SourceSnapshot)
    (candidates : List AssertionCandidate) (relations : List AssertionRelationCandidate)
    (extractionVersion : Text) (now : Rat) (clock : Text → Rat) (db : Db) :
    (publishSource host snapshot candidates relations extractionVersion now clock db).1 = db ∨
      ∃ p, prepare host snapshot candidates relations extractionVersion = .ok p ∧
        (∃ m, db.messages.get snapshot.storeId = some m ∧ snapshotFromRow host snapshot.storeId m = snapshot) ∧
        ∃ alreadyCurrent, Published host snapshot p now clock db
          (publishSource host snapshot candidates relations extractionVersion now clock db).1 alreadyCurrent := by
  cases hresult : (publishSource host snapshot candidates relations extractionVersion now clock db).2 with
  | error error => exact .inl (publishSource_error hresult)
  | ok result =>
    obtain ⟨p, hp, hsnapshot, alreadyCurrent, -, hpublished⟩ := publishSource_ok hresult
    exact .inr ⟨p, hp, hsnapshot, alreadyCurrent, hpublished⟩

/-- Every operation keeps the tables coherent. -/
theorem Coherent.step (hc : Coherent host db) (op : Op) : Coherent host (op.apply host db) := by
  cases op with
  | publish snapshot candidates relations extractionVersion now clock =>
    rcases publish_cases host snapshot candidates relations extractionVersion now clock
      db with hsame | ⟨p, hp, hsnapshot, alreadyCurrent, hpublished⟩
    · rw [Op.apply, hsame]
      exact hc
    · exact hc.publish (prepare_keys hp).1 hsnapshot hpublished
  | invalidate storeId reason invalidatedAt now =>
    rcases invalidateSource_cases storeId reason invalidatedAt now db with hsame | ⟨timestamp, reason', hsame⟩
    · rw [Op.apply, hsame]
      exact hc
    · rw [Op.apply, hsame]
      exact hc.invalidate storeId timestamp reason'
  | remove extractionVersion =>
    rw [Op.apply, removeVersion]
    split
    · exact hc
    · rename_i version _
      refine hc.weaken (fun key _ hget _ m hm => ⟨m, ?_, rfl⟩) fun key receipt hget hmark =>
        ⟨receipt, (foldl_deleteReceipt_sources _ db key hget).1, hmark⟩
      rw [foldl_deleteReceipt_messages]
      exact hm
  | insertMessage storeId message =>
    refine hc.weaken (fun key _ _ _ m hm => ⟨m, ?_, rfl⟩) fun key receipt hget hmark => ⟨receipt, hget, hmark⟩
    simp only [Op.apply, insertMessage, KeyedTable.get_insert]
    split
    · rename_i hnew
      rw [← hnew.1, hm] at hnew
      exact absurd hnew.2 (by simp)
    · exact hm
  | updateMessage storeId message now =>
    rw [Op.apply, updateMessage]
    cases hold : db.messages.get storeId with
    | none => exact hc
    | some old =>
      simp only
      split
      · -- the receipts of the row are marked, so the active ones are of other rows
        refine hc.weaken (fun key receipt hget hmark m hm => ⟨m, ?_, rfl⟩)
          fun key receipt hget hmark => ⟨receipt, (invalidate_active hget hmark).1, hmark⟩
        rw [invalidateWhere, KeyedTable.get_modify_of_ne _ _ (invalidate_active hget hmark).2]
        exact hm
      · rename_i hcontent
        refine hc.weaken (fun key receipt hget hmark m hm => ?_) fun key receipt hget hmark => ⟨receipt, hget, hmark⟩
        by_cases hkey : key.storeId = storeId
        · rw [hkey] at hm ⊢
          obtain rfl := Option.some.inj (hold.symm.trans hm)
          exact ⟨message, by rw [KeyedTable.get_modify_self, hm]; rfl, (of_not_not hcontent).symm⟩
        · exact ⟨m, by rw [KeyedTable.get_modify_of_ne _ _ hkey]; exact hm, rfl⟩
  | deleteMessage storeId now =>
    rw [Op.apply, deleteMessage]
    split
    · exact hc
    · refine hc.weaken (fun key receipt hget hmark m hm => ⟨m, ?_, rfl⟩)
        fun key receipt hget hmark => ⟨receipt, (invalidate_active hget hmark).1, hmark⟩
      have hother := (invalidate_active hget hmark).2
      rw [invalidateWhere, KeyedTable.get_delete, if_neg (by simpa using hother)]
      exact hm

theorem reaches_coherent (run : Reaches host db) : Coherent host db := by
  induction run with
  | start messages => exact coherent_start host messages
  | step op run ih => exact ih.step op

/-! ## What stays of a receipt -/

/-- A receipt with its output: the digest, the counts, and the rows of its assertions. -/
structure Stays (key : Key) (db db' : Db) : Prop where
  receipt : ∀ receipt, db.sources.get key = some receipt → ∃ receipt', db'.sources.get key = some receipt' ∧
    receipt'.candidateDigest = receipt.candidateDigest ∧ receipt'.assertionCount = receipt.assertionCount ∧
    receipt'.relationCount = receipt.relationCount
  assertions : (db.sources.get key).isSome → ∀ id a, a.payload.key = key →
    (db'.assertions.get id = some a ↔ db.assertions.get id = some a)

theorem stays_refl (key : Key) (db : Db) : Stays key db db :=
  ⟨fun receipt h => ⟨receipt, h, rfl, rfl, rfl⟩, fun _ _ _ _ => Iff.rfl⟩

theorem Stays.trans {key : Key} {mid : Db} (h : Stays key db mid) (h' : Stays key mid db') : Stays key db db' := by
  refine ⟨fun receipt hget => ?_, fun hsome id a ha => ?_⟩
  · obtain ⟨receipt', hget', hdigest, hassertions, hrelations⟩ := h.receipt receipt hget
    obtain ⟨receipt'', hget'', hdigest', hassertions', hrelations'⟩ := h'.receipt receipt' hget'
    exact ⟨receipt'', hget'', hdigest'.trans hdigest, hassertions'.trans hassertions, hrelations'.trans hrelations⟩
  · obtain ⟨receipt, hget⟩ := Option.isSome_iff_exists.mp hsome
    obtain ⟨receipt', hget', -⟩ := h.receipt receipt hget
    exact (h'.assertions (by rw [hget']; rfl) id a ha).trans (h.assertions hsome id a ha)

theorem stays_messages (key : Key) (db : Db) (messages : KeyedTable Int Message) :
    Stays key db { db with messages := messages } :=
  ⟨fun receipt h => ⟨receipt, h, rfl, rfl, rfl⟩, fun _ _ _ _ => Iff.rfl⟩

theorem stays_invalidate (key : Key) (storeId : Int) (timestamp : Rat) (reason : Text) (db : Db) :
    Stays key db (invalidateWhere storeId timestamp reason db) := by
  refine ⟨fun receipt hget => ?_, fun _ _ _ _ => Iff.rfl⟩
  rw [get_invalidateWhere, hget, Option.map_some]
  split
  · exact ⟨_, rfl, rfl, rfl, rfl⟩
  · exact ⟨_, rfl, rfl, rfl, rfl⟩

theorem Published.stays (hkeys : ∀ row ∈ p.assertions, row.payload.key = snapshot.key p.version)
    (hp : Published host snapshot p now clock db db' alreadyCurrent) (key : Key) : Stays key db db' := by
  cases hp with
  | same receipt hget hactive hrecords hdb =>
    rw [hdb]
    exact stays_refl key db
  | reactivated receipt hcurrent hget hrecords hdb =>
    subst hdb
    refine ⟨fun old hold => ?_, fun _ _ _ _ => Iff.rfl⟩
    by_cases hkey : key = snapshot.key p.version
    · subst hkey
      refine ⟨old.reactivate snapshot now, ?_, rfl, rfl, rfl⟩
      rw [KeyedTable.get_modify_self, hold]
      rfl
    · exact ⟨old, by rw [KeyedTable.get_modify_of_ne _ _ hkey]; exact hold, rfl, rfl, rfl⟩
  | inserted hcurrent hget hinsert =>
    have hins := insertOutput_inserted hkeys hinsert
    have hne : (db.sources.get key).isSome → key ≠ snapshot.key p.version := by
      rintro hsome rfl
      rw [hget] at hsome
      cases hsome
    refine ⟨fun old hold => ⟨old, ?_, rfl, rfl, rfl⟩,
      fun hsome id a ha => hins.assertions id a fun h => hne hsome (ha.symm.trans h)⟩
    rw [hins.sources, if_neg (hne (by rw [hold]; rfl))]
    exact hold

/-- An operation that does not remove a receipt leaves it. -/
theorem apply_stays (host : Host) (db : Db) (op : Op) {key : Key} (hop : ¬ Removes key op) :
    Stays key db (op.apply host db) := by
  cases op with
  | publish snapshot candidates relations extractionVersion now clock =>
    rcases publish_cases host snapshot candidates relations extractionVersion now clock
      db with hsame | ⟨p, hp, -, alreadyCurrent, hpublished⟩
    · rw [Op.apply, hsame]
      exact stays_refl key db
    · exact hpublished.stays (prepare_keys hp).1 key
  | invalidate storeId reason invalidatedAt now =>
    rcases invalidateSource_cases storeId reason invalidatedAt now db with hsame | ⟨timestamp, reason', hsame⟩
    · rw [Op.apply, hsame]
      exact stays_refl key db
    · rw [Op.apply, hsame]
      exact stays_invalidate key storeId timestamp reason' db
  | remove extractionVersion =>
    rw [Op.apply, removeVersion]
    split
    · exact stays_refl key db
    · rename_i version hversion
      have hother : key ∉ (db.sources.rows.map Prod.fst).filter fun k => k.version = version := by
        intro hmem
        have hsame : key.version = version := by simpa using (List.mem_filter.mp hmem).2
        exact hop (hversion.trans (by rw [hsame]))
      obtain ⟨hsources, hassertions⟩ := foldl_deleteReceipt _ hother db
      exact ⟨fun receipt hget => ⟨receipt, hsources.trans hget, rfl, rfl, rfl⟩, fun _ => hassertions⟩
  | insertMessage storeId message => exact stays_messages key db _
  | updateMessage storeId message now =>
    rw [Op.apply, updateMessage]
    split
    · exact stays_refl key db
    · simp only
      split
      · exact (stays_messages key db _).trans (stays_invalidate key storeId now _ _)
      · exact stays_messages key db _
  | deleteMessage storeId now =>
    rw [Op.apply, deleteMessage]
    split
    · exact stays_refl key db
    · exact (stays_messages key db _).trans (stays_invalidate key storeId now _ _)

/-- The state after the calls of a list. -/
def runOps (host : Host) (db : Db) (ops : List Op) : Db := ops.foldl (fun db op => op.apply host db) db

theorem runOps_stays {key : Key} (ops : List Op) (h : ∀ op ∈ ops, ¬ Removes key op) (db : Db) :
    Stays key db (runOps host db ops) := by
  induction ops generalizing db with
  | nil => exact stays_refl key db
  | cons op ops ih =>
    have hrest := ih (fun op' hop' => h op' (List.mem_cons_of_mem _ hop')) (op.apply host db)
    exact (apply_stays host db op (h op List.mem_cons_self)).trans hrest

theorem runOps_coherent (hc : Coherent host db) (ops : List Op) : Coherent host (runOps host db ops) := by
  induction ops generalizing db with
  | nil => exact hc
  | cons op ops ih => exact ih (hc.step op)

/-- A call on a row of the messages. -/
def Touches (storeId : Int) : Op → Prop
  | .insertMessage id _ | .updateMessage id _ _ | .deleteMessage id _ => id = storeId
  | _ => False

theorem Published.messages (hkeys : ∀ row ∈ p.assertions, row.payload.key = snapshot.key p.version)
    (hp : Published host snapshot p now clock db db' alreadyCurrent) : db'.messages = db.messages := by
  cases hp with
  | same receipt hget hactive hrecords hdb => rw [hdb]
  | reactivated receipt hcurrent hget hrecords hdb => rw [hdb]
  | inserted hcurrent hget hinsert => exact (insertOutput_inserted hkeys hinsert).messages

/-- An operation that does not touch a message leaves it. -/
theorem apply_message (host : Host) (db : Db) (op : Op) {storeId : Int} (hop : ¬ Touches storeId op) :
    (op.apply host db).messages.get storeId = db.messages.get storeId := by
  cases op with
  | publish snapshot candidates relations extractionVersion now clock =>
    rcases publish_cases host snapshot candidates relations extractionVersion now clock
      db with hsame | ⟨p, hp, -, alreadyCurrent, hpublished⟩
    · rw [Op.apply, hsame]
    · rw [Op.apply, hpublished.messages (prepare_keys hp).1]
  | invalidate id reason invalidatedAt now =>
    rcases invalidateSource_cases id reason invalidatedAt now db with hsame | ⟨timestamp, reason', hsame⟩
    · rw [Op.apply, hsame]
    · rw [Op.apply, hsame]
      rfl
  | remove extractionVersion =>
    rw [Op.apply, removeVersion]
    split
    · rfl
    · rw [foldl_deleteReceipt_messages]
  | insertMessage id message =>
    have hne : ¬ storeId = id := fun h => hop h.symm
    simp [Op.apply, insertMessage, KeyedTable.get_insert, hne]
  | updateMessage id message now =>
    have hne : storeId ≠ id := fun h => hop h.symm
    rw [Op.apply, updateMessage]
    split
    · rfl
    · simp only
      split
      · exact KeyedTable.get_modify_of_ne _ _ hne
      · exact KeyedTable.get_modify_of_ne _ _ hne
  | deleteMessage id now =>
    have hne : storeId ≠ id := fun h => hop h.symm
    rw [Op.apply, deleteMessage]
    split
    · rfl
    · rw [invalidateWhere, KeyedTable.get_delete, if_neg (by simpa using hne)]

theorem runOps_message {storeId : Int} (ops : List Op) (h : ∀ op ∈ ops, ¬ Touches storeId op) (db : Db) :
    (runOps host db ops).messages.get storeId = db.messages.get storeId := by
  induction ops generalizing db with
  | nil => rfl
  | cons op ops ih =>
    have hrest := ih (fun op' hop' => h op' (List.mem_cons_of_mem _ hop')) (op.apply host db)
    exact hrest.trans (apply_message host db op (h op List.mem_cons_self))

/-! ## Publishing again -/

/-- An assertion of a source and a version that is in force. -/
def ActiveAssertion (db : Db) (storeId : Int) (version : Text) (id : Text) (a : StoredAssertion) : Prop :=
  db.assertions.get id = some a ∧ a.payload.key.storeId = storeId ∧ a.payload.key.version = version ∧
    isActive db a.payload.key = true

theorem isActive_iff {key : Key} : isActive db key = true ↔
    ∃ receipt, db.sources.get key = some receipt ∧ receipt.invalidated = none := by
  simp [isActive, Option.any_eq_true]

/-- Under an active receipt, the assertions in force are those of its key. -/
theorem activeAssertion_iff (hc : Coherent host db) {key : Key} (hactive : isActive db key = true)
    (id : Text) (a : StoredAssertion) :
    ActiveAssertion db key.storeId key.version id a ↔ db.assertions.get id = some a ∧ a.payload.key = key := by
  obtain ⟨receipt, hget, hmark⟩ := isActive_iff.mp hactive
  constructor
  · rintro ⟨hrow, hstore, hversion, hown⟩
    obtain ⟨receipt', hget', hmark'⟩ := isActive_iff.mp hown
    exact ⟨hrow, hc.single _ _ receipt' receipt hget' hget hmark' hmark hstore hversion⟩
  · rintro ⟨hrow, rfl⟩
    exact ⟨hrow, rfl, rfl, hactive⟩

/-- After a publication its receipt is active and records it. -/
theorem Published.receipt (hkeys : ∀ row ∈ p.assertions, row.payload.key = snapshot.key p.version)
    (hp : Published host snapshot p now clock db db' alreadyCurrent) :
    ∃ receipt, db'.sources.get (snapshot.key p.version) = some receipt ∧
      receipt.invalidated = none ∧ receipt.records p := by
  cases hp with
  | same receipt hget hactive hrecords hdb => exact ⟨receipt, hdb ▸ hget, hactive, hrecords⟩
  | reactivated receipt hcurrent hget hrecords hdb =>
    refine ⟨receipt.reactivate snapshot now, ?_, rfl, hrecords⟩
    rw [hdb, KeyedTable.get_modify_self, hget]
    rfl
  | inserted hcurrent hget hinsert =>
    refine ⟨p.receipt snapshot now, ?_, rfl, rfl, rfl, rfl⟩
    rw [(insertOutput_inserted hkeys hinsert).sources, if_pos rfl]

/-- Where a receipt records an output, its publication goes through and writes no assertion. -/
theorem publish_again (hc : Coherent host db) {candidates : List AssertionCandidate}
    {relations : List AssertionRelationCandidate}
    {extractionVersion : Text} (hp : prepare host snapshot candidates relations extractionVersion = .ok p) {m : Message}
    (hm : db.messages.get snapshot.storeId = some m)
    (hsnapshot : snapshotFromRow host snapshot.storeId m = snapshot) {receipt : Receipt}
    (hget : db.sources.get (snapshot.key p.version) = some receipt) (hrecords : receipt.records p)
    (now : Rat) (clock : Text → Rat) :
    (publishSource host snapshot candidates relations extractionVersion now clock db).2 = .ok (p.result snapshot true) ∧
      (publishSource host snapshot candidates relations extractionVersion now clock db).1.assertions =
      db.assertions := by
  have hsha : snapshot.contentSha256 = host.sha256 (m.content.getD []) := by
    rw [← hsnapshot]
    rfl
  have htransaction : ∃ db', publishTransaction host snapshot p now clock db = .ok
      (db', p.result snapshot true) ∧ db'.assertions = db.assertions := by
    rw [publishTransaction, hm]
    simp only
    rw [if_neg (not_not.mpr hsnapshot)]
    cases hcurrent : currentReceipt db snapshot.storeId p.version with
    | some found =>
      obtain ⟨key, active⟩ := found
      obtain ⟨hactive, hstore, hversion, hmark⟩ := currentReceipt_spec hcurrent
      -- the active receipt is for the content of the message, so it is this one
      obtain ⟨m', hm', hsha'⟩ := hc.current key active hactive hmark
      rw [hstore, hm] at hm'
      obtain rfl := Option.some.inj hm'
      have hkey : key = snapshot.key p.version := by
        obtain ⟨storeId, version, sha⟩ := key
        simp only at hstore hversion hsha'
        rw [SourceSnapshot.key, hstore, hversion, hsha', hsha]
      rw [hkey, hget] at hactive
      obtain rfl := Option.some.inj hactive
      simp only
      rw [if_pos ⟨hsha'.trans hsha.symm, hrecords⟩]
      exact ⟨db, rfl, rfl⟩
    | none =>
      have hmark : receipt.invalidated.isSome := currentReceipt_none (snapshot.key p.version) hcurrent hget
      simp only
      rw [hget, Option.filter_some, if_pos hmark]
      simp only
      rw [if_pos hrecords]
      exact ⟨_, rfl, rfl⟩
  obtain ⟨db', hok, hassertions⟩ := htransaction
  rw [publishSource, hp]
  simp only [inTransaction, hok]
  exact ⟨trivial, hassertions⟩

/-- Where a receipt records another digest, the publication raises. -/
theorem publish_refused {candidates : List AssertionCandidate} {relations : List AssertionRelationCandidate}
    {extractionVersion : Text}
    (hp : prepare host snapshot candidates relations extractionVersion = .ok p) {receipt : Receipt}
    (hget : db.sources.get (snapshot.key p.version) = some receipt)
    (hdiffers : receipt.candidateDigest ≠ p.candidateDigest) (now : Rat)
    (clock : Text → Rat) : ∃ error,
    (publishSource host snapshot candidates relations extractionVersion now clock db).2 = .error error := by
  cases hresult : (publishSource host snapshot candidates relations extractionVersion now clock db).2 with
  | error error => exact ⟨error, rfl⟩
  | ok result =>
    exfalso
    obtain ⟨q, hq, -, alreadyCurrent, -, hpublished⟩ := publishSource_ok hresult
    obtain rfl := Except.ok.inj (hp.symm.trans hq)
    cases hpublished with
    | same old hold hactive hrecords hdb =>
      obtain rfl := Option.some.inj (hget.symm.trans hold)
      exact hdiffers hrecords.1
    | reactivated old hcurrent hold hrecords hdb =>
      obtain rfl := Option.some.inj (hget.symm.trans hold)
      exact hdiffers hrecords.1
    | inserted hcurrent hnone hinsert =>
      rw [hget] at hnone
      cases hnone

/-- One receipt of a source and a version is active. A receipt keeps its digest until its version is removed, another
output is refused, and the same output goes through again and finds the assertions in force that it had left. A
publication that raises changes nothing. -/
theorem publication_invariant (run : Reaches host db) :
    (∀ key key', isActive db key = true → isActive db key' = true → key.storeId = key'.storeId →
      key.version = key'.version → key = key') ∧
    (∀ key receipt ops, db.sources.get key = some receipt → (∀ op ∈ ops, ¬ Removes key op) →
      ∃ receipt', (runOps host db ops).sources.get key = some receipt' ∧
      receipt'.candidateDigest = receipt.candidateDigest) ∧
    (∀ snapshot candidates relations extractionVersion now clock p receipt,
      prepare host snapshot candidates relations extractionVersion = .ok p →
      db.sources.get (snapshot.key p.version) = some receipt → receipt.candidateDigest ≠ p.candidateDigest →
      ∃ error, (publishSource host snapshot candidates relations extractionVersion now clock db).2 = .error error) ∧
    (∀ snapshot candidates relations extractionVersion now clock result ops now' clock',
      let first := publishSource host snapshot candidates relations extractionVersion now clock db
      let again := publishSource host snapshot candidates relations extractionVersion now' clock'
        (runOps host first.1 ops)
      first.2 = .ok result →
      (∀ op ∈ ops, ¬ Removes ⟨result.sourceStoreId, result.extractionVersion, result.sourceContentSha256⟩
        op ∧ ¬ Touches result.sourceStoreId op) →
      again.2 = .ok { result with alreadyCurrent := true } ∧
        ∀ id a, ActiveAssertion again.1 result.sourceStoreId result.extractionVersion id a ↔
          ActiveAssertion first.1 result.sourceStoreId result.extractionVersion id a) ∧
    ∀ snapshot candidates relations extractionVersion now clock error,
      (publishSource host snapshot candidates relations extractionVersion now clock db).2 = .error error →
      (publishSource host snapshot candidates relations extractionVersion now clock db).1 = db := by
  have hc := reaches_coherent run
  refine ⟨fun key key' hactive hactive' hstore hversion => ?_, fun key receipt ops hget hops => ?_,
    fun snapshot candidates relations extractionVersion now clock p receipt hp hget hdiffers =>
      publish_refused hp hget hdiffers now clock,
    ?_, fun _ _ _ _ _ _ _ herror => publishSource_error herror⟩
  · obtain ⟨receipt, hget, hmark⟩ := isActive_iff.mp hactive
    obtain ⟨receipt', hget', hmark'⟩ := isActive_iff.mp hactive'
    exact hc.single key key' receipt receipt' hget hget' hmark hmark' hstore hversion
  · obtain ⟨receipt', hget', hdigest, -⟩ := (runOps_stays ops hops db).receipt receipt hget
    exact ⟨receipt', hget', hdigest⟩
  · intro snapshot candidates relations extractionVersion now clock result ops now' clock' first again hfirst hops
    obtain ⟨p, hp, ⟨m, hm, hsnapshot⟩, alreadyCurrent, rfl, hpublished⟩ := publishSource_ok hfirst
    have hkeys := (prepare_keys hp).1
    have hcFirst : Coherent host first.1 := hc.publish hkeys ⟨m, hm, hsnapshot⟩ hpublished
    obtain ⟨receipt, hget, hmark, hrecords⟩ := hpublished.receipt hkeys
    have hstays : Stays (snapshot.key p.version) first.1 (runOps host first.1 ops) :=
      runOps_stays ops (fun op hop => (hops op hop).1) first.1
    obtain ⟨receipt', hget', hdigest, hassertions, hrelations⟩ := hstays.receipt receipt hget
    have hrecords' : receipt'.records p :=
      ⟨hdigest.trans hrecords.1, hassertions.trans hrecords.2.1, hrelations.trans hrecords.2.2⟩
    have hcLater : Coherent host (runOps host first.1 ops) := runOps_coherent hcFirst ops
    have hmessage : (runOps host first.1 ops).messages.get snapshot.storeId = first.1.messages.get snapshot.storeId :=
      runOps_message ops (fun op hop => (hops op hop).2) first.1
    have hm' : (runOps host first.1 ops).messages.get snapshot.storeId = some m := by
      rw [hmessage, hpublished.messages hkeys]
      exact hm
    obtain ⟨hok, hsame⟩ := publish_again hcLater hp hm' hsnapshot hget' hrecords' now' clock'
    obtain ⟨q, hq, hsnapshot', alreadyCurrent', -, hpublished'⟩ := publishSource_ok hok
    obtain rfl := Except.ok.inj (hp.symm.trans hq)
    have hcAgain : Coherent host again.1 := hcLater.publish hkeys hsnapshot' hpublished'
    obtain ⟨receipt'', hget'', hmark'', -⟩ := hpublished'.receipt hkeys
    refine ⟨hok, fun id a => ?_⟩
    have hbefore := activeAssertion_iff hcFirst (isActive_iff.mpr ⟨receipt, hget, hmark⟩) id a
    have hafter := activeAssertion_iff hcAgain (isActive_iff.mpr ⟨receipt'', hget'', hmark''⟩) id a
    refine hafter.trans (Iff.trans ?_ hbefore.symm)
    refine and_congr_left fun ha => ?_
    rw [show again.1.assertions = (runOps host first.1 ops).assertions from hsame]
    exact hstays.assertions (by rw [hget]; rfl) id a ha

end

/-! ## A store with one message -/

def plainHost : Host := ⟨fun value => (value ++ List.replicate 64 '0').take 64, fun _ => .float '1' ".0"⟩

def teaMessage : Message := ⟨"s".toList, some "cli".toList, "user".toList, some "I like tea".toList, 1, none⟩

def teaDb : Db := ensureTables ⟨[(1, teaMessage)], by decide⟩

def teaCandidates : List AssertionCandidate :=
  [{ sourceSpanStart := 7, sourceSpanEnd := 10, subjectKey := "user".toList,
     predicateKey := "likes".toList, kind := "preference".toList }]

def publishTea (db : Db) : Db × Except Error PublishResult :=
  publishSource plainHost (snapshotFromRow plainHost 1 teaMessage) teaCandidates
    [] "assertions-v1".toList 2 (fun _ => 2) db

def invalidateTea : List Op := [.invalidate 1 "manual".toList none 3]

/-- The output goes through again after its receipt was invalidated. -/
theorem publication_invariant_tea : ∃ result, (publishTea teaDb).2 = .ok result ∧ result.alreadyCurrent = false ∧
    (publishTea (runOps plainHost (publishTea teaDb).1 invalidateTea)).2 = .ok
    { result with alreadyCurrent := true } := by
  have hfirst : (publishTea teaDb).2.toOption.map (fun r => (r.alreadyCurrent, r.sourceStoreId, r.extractionVersion)) =
      some (false, 1, "assertions-v1".toList) := by decide +kernel
  obtain ⟨result, hresult, hfacts⟩ := Option.map_eq_some_iff.mp hfirst
  have hok : (publishTea teaDb).2 = .ok result := by
    cases h : (publishTea teaDb).2 with
    | error error =>
      rw [h] at hresult
      cases hresult
    | ok r =>
      rw [h] at hresult
      rw [Option.some.inj hresult]
  obtain ⟨-, -, -, hagain, -⟩ := @publication_invariant plainHost teaDb (.start _)
  refine ⟨result, hok, (Prod.mk.inj hfacts).1,
    (hagain _ _ _ _ _ _ result invalidateTea 2 (fun _ => 2) hok fun op hop => ?_).1⟩
  obtain rfl := List.mem_singleton.mp hop
  exact ⟨id, id⟩

end Assertion
