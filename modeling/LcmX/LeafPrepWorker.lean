import LcmX.LeafPrep
import LcmX.LifecyclePublication

/-!
# The worker of the prepared leaves

One thread runs the jobs, one after another. A job reads the rows of its session above its
frontier, takes over what the cache has for them, and prepares one leaf after another. Between
any two of its steps other threads may use the cache, and the store may change.
-/
namespace LeafPrep

/-! ## The store -/

structure Row where
  storeId : Int
  sessionId : String
  conversationId : Option String
  role : String
  content : Option String
  toolCallId : Option String
  toolCalls : Option String
  toolName : Option String
  deriving DecidableEq, Repr

structure Database where
  messages : List Row
  sorted : (messages.map Row.storeId).Pairwise (· < ·)
  /-- The conversation ids that are not normalized, found when the store is bound. -/
  legacy : List (Option String)
  lifecycle : Lifecycle.Rows
  /-- The ids in the sources of the message nodes. -/
  covered : Int → Bool

def scanLimit : Nat := 2000

/-- The rows of a session in a conversation. -/
def Database.own (db : Database) (session conversation : String) : List Row :=
  db.messages.filter fun row => row.sessionId = session ∧
    Lifecycle.ownedConversation db.legacy conversation row.conversationId

def selectConversationRange (db : Database) (session conversation : String) (after : Int) (limit : Nat) : List Row :=
  ((db.own session conversation).filter fun row => after < row.storeId).take limit

/-- The next row has a larger id than all others. -/
def Database.append (db : Database) (row : Row) (h : ∀ r ∈ db.messages, r.storeId < row.storeId) : Database :=
  { db with
    messages := db.messages ++ [row]
    sorted := by
      rw [List.map_append, List.pairwise_append]
      refine ⟨db.sorted, List.pairwise_singleton _ _, fun id hid id' hid' => ?_⟩
      obtain ⟨r, hr, rfl⟩ := List.mem_map.mp hid
      rw [List.map_singleton, List.mem_singleton] at hid'
      exact hid' ▸ h r hr }

/-- The row of the conversation has the session and the frontier of the job. -/
def Database.confirms {σ : Type} (db : Database) (job : Job σ) : Bool :=
  match db.lifecycle.get job.conversationId with
  | none => false
  | some row => row.currentSessionId.getD "" = job.sessionId ∧ row.currentFrontierStoreId = job.frontier

/-! ## The units of the host -/

def hostUnitBoundary (previous following : Option Row) : Bool :=
  match previous, following with
  | some previous, some following =>
    following.role = "user" ∨ following.role = "system" ∨ (previous.role = "tool" ∧ following.role ≠ "tool")
  | _, _ => false

/-- The stored row behind the one with this id. -/
def followingRow (raw : List Row) (id : Int) : Option Row := (raw.dropWhile fun row => row.storeId ≠ id).tail.head?

/-- `unit_end`; none when the index is out of range. -/
def unitEnd (raw rows : List Row) (stop : Nat) : Option Bool :=
  (if stop = 0 then rows.getLast? else rows[stop - 1]?).map fun row => hostUnitBoundary (some row)
    (followingRow raw row.storeId)

/-- Back to the end of a unit, at most to `position`. -/
def walkBack (atEnd : Nat → Option Bool) (position : Nat) : Nat → Option Nat
  | 0 => some position
  | n + 1 => (atEnd (position + n + 1)).bind fun found => if found then some (position + n + 1)
        else walkBack atEnd position n

/-- Forward to the end of a unit, over at most `n` rows. -/
def walkForward (atEnd : Nat → Option Bool) : Nat → Nat → Option Nat
  | 0, stop => some stop
  | n + 1, stop => (atEnd stop).bind fun found => if found then some stop else walkForward atEnd n (stop + 1)

/-- The end of the chunk of `count` rows at `position`, moved to the end of a unit. -/
def chunkEnd (atEnd : Nat → Option Bool) (length position count : Nat) : Option Nat :=
  (walkBack atEnd position count).bind fun stop =>
    if stop ≠ position then some stop
    else (walkForward atEnd (length - (position + 1)) (position + 1)).bind fun stop => if atEnd
      stop = some true then some stop else none

/-! ## What a job calls -/

/-- The counts of tokens, the choice of chunks and the texts for the model. `tokensToFree` is none
when there is nothing to prepare. -/
structure Host (σ μ : Type) where
  summaryInput : σ → List Row → List μ
  freshTailStart : σ → List μ → Nat
  excludedFromSummaryInput : σ → String → Row → Bool
  countMessagesTokens : List μ → Int
  countTokens : String → Int
  workingLeafChunkTokens : σ → Int → Int
  tokensToFree : σ → Int → Option Rat
  selectOldestLeafChunk : List μ → Int → List μ
  leafChunkTokens : σ → Int
  nextLeafRescueChunk : σ → List μ → Int → Bool → List μ
  serialize : σ → List μ → Option Int → String × Bool
  coverageDigest : List (Int × Option String) → String

/-- What the model says to one attempt. -/
inductive Answer where
  | summary (text : String) (level : Nat) (model : String) (contextLengthError : Bool)
  | exception (retryWorthy : Bool)

structure LeafSummary (μ : Type) where
  chunk : List μ
  sourceTokens : Int
  summary : String
  level : Nat
  model : String
  level3Verbatim : Bool

def leafRescueFloorTokens : Int := 8000

section

variable {σ μ : Type} (host : Host σ μ)

/-- `summarize_leaf_chunk_with_rescue` with `attempts` attempts left, each of them on a smaller
chunk or with a smaller budget. -/
def summarizeLeafChunkWithRescue (settings : σ) : Nat → Int → List μ → List Answer → Option (LeafSummary μ)
  | attempts + 1, clipBudget, chunk, answer :: answers =>
    if chunk.length = 0 then none
    else
      let floor := min (host.leafChunkTokens settings) leafRescueFloorTokens
      let sourceTokens := host.countMessagesTokens chunk
      let (serialized, clipped) := host.serialize settings chunk
        (if clipBudget = host.leafChunkTokens settings then none else some clipBudget)
      let rescue := if 0 < attempts then host.nextLeafRescueChunk settings chunk sourceTokens (attempts ≤ 1) else []
      let smaller : Bool := 0 < rescue.length ∧ rescue.length < chunk.length
      let clip : Bool := 0 < attempts ∧ floor < clipBudget ∧ floor < host.countTokens serialized ∧
        (¬ smaller ∨ (attempts ≤ 1 ∧ floor < host.countMessagesTokens rescue))
      let rescue := if clip ∧ ¬ smaller then chunk else rescue
      let rescueBudget := if clip then floor else clipBudget
      match answer with
      | .summary text level model contextLengthError =>
        if level = 3 ∧ contextLengthError ∧ text ≠ serialized ∧ (smaller ∨ clip) then
          summarizeLeafChunkWithRescue settings attempts rescueBudget rescue answers
        else some ⟨chunk, sourceTokens, text, level, model, level = 3 ∧ ¬ clipped ∧ text = serialized⟩
      | .exception retryWorthy =>
        if 0 < attempts ∧ retryWorthy ∧ (smaller ∨ clip) then
          summarizeLeafChunkWithRescue settings attempts rescueBudget rescue answers
        else none
  | _, _, _, _ => none

/-! ## The rows of a job -/

/-- What a job has read: all rows, those before the first row of a leaf, and those that leaves may cover. -/
structure Scan (μ : Type) where
  raw : List Row
  anchors : List Int
  rows : List Row
  messages : List μ
  chunkTokens : Int
  need : Rat

/-- The least id of a row that another session has in the conversation. -/
def foreignId (db : Database) (job : Job σ) (last : Int) : Option Int :=
  ((db.messages.filter fun row => job.frontier < row.storeId ∧ row.storeId ≤ last ∧ row.sessionId ≠ job.sessionId ∧
    row.conversationId = some job.conversationId).map Row.storeId).min?

/-- A row that a leaf cannot cover. -/
def stops (job : Job σ) (covered : Int → Bool) (foreign : Option Int) (row : Row) : Bool :=
  row.role = "system" ∨ covered row.storeId ∨ foreign.any (fun id => id < row.storeId) ∨
    host.excludedFromSummaryInput job.settings job.sessionId row

/-- `_eligible_prefix`, with the covered ids that it has read. -/
def eligiblePrefix (db : Database) (job : Job σ) (covered : Int → Bool) (rows : List Row)
    (messages : List μ) : List Int × List Row × List μ :=
  let foreign := rows.getLast?.bind fun last => foreignId db job last.storeId
  let lead := (rows.takeWhile fun row => row.role = "system").length
  let eligible := (rows.drop lead).takeWhile fun row => ¬ stops host job covered foreign row
  ((rows.take lead).map Row.storeId, eligible, (messages.drop lead).take eligible.length)

/-- The scan of a job without the fresh tail; none when there is nothing to prepare. -/
def scanOf (db : Database) (job : Job σ) (raw : List Row) (covered : Int → Bool) : Option (Scan μ) :=
  let messages := host.summaryInput job.settings raw
  let start := host.freshTailStart job.settings messages
  let (anchors, rows, messages) := eligiblePrefix host db job covered (raw.take start) (messages.take start)
  if rows = [] then none
  else
    let chunkTokens := host.workingLeafChunkTokens job.settings (host.countMessagesTokens messages)
    (host.tokensToFree job.settings chunkTokens).map fun need => { raw, anchors, rows, messages, chunkTokens, need }

/-! ## The loop of a job -/

/-- The leaves of the job so far, and the rows that they cover. -/
structure Run (σ μ : Type) where
  job : Job σ
  scan : Scan μ
  chain : List PreparedLeaf
  position : Nat
  freed : Int

def coverage (rows : List Row) : List (Int × Option String) := rows.map fun row => (row.storeId, row.content)

/-- The leaves of the cache that still cover the rows, up to the first one that does not. -/
def validate (fingerprint : String) (rows : List Row) : List PreparedLeaf → Nat → Int → List PreparedLeaf × Nat × Int
  | [], position, freed => ([], position, freed)
  | leaf :: leaves, position, freed =>
    let part := (rows.drop position).take leaf.coveredStoreIds.length
    if part.map Row.storeId ≠ leaf.coveredStoreIds ∨ host.coverageDigest (coverage part) ≠
      leaf.coverageDigest ∨ leaf.routeFingerprint ≠ fingerprint then
      ([], position, freed)
    else
      let rest := validate fingerprint rows leaves (position + part.length)
        (freed + leaf.sourceTokens - leaf.summaryTokens)
      (leaf :: rest.1, rest.2)

/-- The run after the check of the chain, and the leaves that have to go. -/
def takeOver (job : Job σ) (scan : Scan μ) (chain : List PreparedLeaf) : Run σ μ × List PreparedLeaf :=
  let (kept, position, freed) := validate host job.fingerprint scan.rows chain 0 0
  (⟨job, scan, kept, position, freed⟩, chain.drop kept.length)

def dropWasted (prep : Prep σ) (key : Key) (gone : List PreparedLeaf) : Prep σ :=
  if gone = [] then prep else { prep with counters := bump prep.counters "wasted" gone.length }.removeLocked
    key gone none

/-- The end of the next chunk; none when the job is done. -/
def nextChunk (run : Run σ μ) : Option Nat :=
  if run.freed < run.scan.need ∧ run.chain.length < perConversation ∧ run.position < run.scan.rows.length then
    let remaining := run.scan.messages.drop run.position
    if host.countMessagesTokens remaining < run.scan.chunkTokens then none
    else
      chunkEnd (unitEnd run.scan.raw run.scan.rows) run.scan.rows.length run.position
        (host.selectOldestLeafChunk remaining run.scan.chunkTokens).length
  else none

def Run.startFrontier (run : Run σ μ) : Int :=
  match run.chain.getLast? with
  | some last => last.coveredEnd
  | none => run.job.frontier

def leafOf (run : Run σ μ) (result : LeafSummary μ) (covered : List Row) : PreparedLeaf where
  sessionId := run.job.sessionId
  conversationId := run.job.conversationId
  startFrontier := run.startFrontier
  coveredStoreIds := covered.map Row.storeId
  excludedStoreIds := if run.chain = [] then run.scan.anchors else []
  coverageDigest := host.coverageDigest (coverage covered)
  routeFingerprint := run.job.fingerprint
  summary := result.summary
  level := result.level
  model := result.model
  sourceTokens := result.sourceTokens
  summaryTokens := host.countTokens result.summary

/-- The leaf that the model's answers give, and how many rows it covers. -/
def prepareLeaf (run : Run σ μ) (stop : Nat) (answers : List Answer) : Option (PreparedLeaf × Nat) :=
  let chunk := (run.scan.messages.take stop).drop run.position
  (summarizeLeafChunkWithRescue host run.job.settings 3
    (host.leafChunkTokens run.job.settings) chunk answers).bind fun result =>
    if result.level = 3 ∧ ¬ result.level3Verbatim then none
    else
      let covered := (run.scan.rows.drop run.position).take result.chunk.length
      if unitEnd run.scan.raw run.scan.rows (run.position + covered.length) = some true then
        some (leafOf host run result covered, covered.length)
      else none

def Run.push (run : Run σ μ) (leaf : PreparedLeaf) (n : Nat) : Run σ μ :=
  { run with
    chain := run.chain ++ [leaf]
    position := run.position + n
    freed := run.freed + leaf.sourceTokens - leaf.summaryTokens }

end

/-! ## The steps -/

/-- Where the worker is. -/
inductive Worker (σ μ : Type) where
  | idle
  | taken (job : Job σ)
  /-- `_prepare` has let the job in. -/
  | opened (job : Job σ)
  /-- `_current` has seen the generation of the job. -/
  | probed (job : Job σ)
  | current (job : Job σ)
  | read (job : Job σ) (raw : List Row)
  /-- The ids that nodes cover are read. -/
  | sourced (job : Job σ) (raw : List Row) (covered : Int → Bool)
  | scanned (job : Job σ) (scan : Scan μ)
  | chained (job : Job σ) (scan : Scan μ) (chain : List PreparedLeaf)
  | preparing (run : Run σ μ)
  /-- A chunk is chosen, and the slot for the call is taken. -/
  | calling (run : Run σ μ) (stop : Nat)
  | summarized (run : Run σ μ) (leaf : PreparedLeaf) (n : Nat)
  | checked (run : Run σ μ) (leaf : PreparedLeaf) (n : Nat)
  | confirmed (run : Run σ μ) (leaf : PreparedLeaf) (n : Nat)

structure System (σ μ : Type) where
  prep : Prep σ
  worker : Worker σ μ
  databases : String → Database
  /-- All leaves that have been cached, with the generations of their jobs; nothing reads it. -/
  prepared : List (Key × Nat × PreparedLeaf)

variable {σ μ : Type}

def System.generation (s : System σ μ) (job : Job σ) : Nat := s.prep.generations job.dbPath

def System.setDatabase (s : System σ μ) (path : String) (db : Database) : System σ μ :=
  { s with databases := fun other => if other = path then db else s.databases other }

/-- One step of a thread. What a job calls need not give the same answer twice. -/
inductive Step : System σ μ → System σ μ → Prop where
  | enqueue (s) (job : Job σ) : Step s { s with prep := (s.prep.enqueue job).2 }
  | discard (s) (dbPath : String) : Step s { s with prep := s.prep.discard dbPath }
  | readyChain (s) {fuel : Nat} {key : Key} {frontier : Int} {chain : List PreparedLeaf} {prep : Prep σ}
      (h : s.prep.readyChain fuel key frontier = some (chain, prep)) : Step s { s with prep := prep }
  | reject (s) (key : Key) (leaves : List PreparedLeaf) (reason : String) :
      Step s { s with prep := s.prep.reject key leaves reason }
  | promoted (s) (key : Key) (leaf : PreparedLeaf) : Step s { s with prep := s.prep.promoted key leaf }
  | append (s) (path : String) (row : Row) (h : ∀ r ∈ (s.databases path).messages, r.storeId < row.storeId) :
      Step s (s.setDatabase path ((s.databases path).append row h))
  | lifecycle (s) (path : String) (rows : Lifecycle.Rows) :
      Step s (s.setDatabase path { s.databases path with lifecycle := rows })
  | nodes (s) (path : String) (covered : Int → Bool) :
      Step s (s.setDatabase path { s.databases path with covered := covered })
  /-- A check of the job fails, there is nothing more to prepare, or a call raises an exception. -/
  | leave (s) : Step s { s with worker := .idle }
  | take (s) {key : Key} {job : Job σ} (hw : s.worker = .idle) (hjob : s.prep.jobs.rows.head? = some (key, job)) :
      Step s
        { s with prep := { s.prep with jobs := s.prep.jobs.delete fun other => other = key }, worker := .taken job }
  | opens (s) {job : Job σ} (hw : s.worker = .taken job) (h : s.generation job = job.generation) :
      Step s { s with worker := .opened job }
  | probe (s) {job : Job σ} (hw : s.worker = .opened job) (h : s.generation job = job.generation) :
      Step s { s with worker := .probed job }
  | isCurrent (s) {job : Job σ} (hw : s.worker = .probed job)
      (h : (s.databases job.dbPath).confirms job) : Step s { s with worker := .current job }
  | select (s) {job : Job σ} {raw : List Row} (hw : s.worker = .current job)
      (hraw : selectConversationRange (s.databases job.dbPath) job.sessionId job.conversationId
        job.frontier scanLimit = raw) (hlimit : raw.length < scanLimit) :
      Step s { s with worker := .read job raw }
  | source (s) {job : Job σ} {raw : List Row} (hw : s.worker = .read job raw) :
      Step s { s with worker := .sourced job raw (s.databases job.dbPath).covered }
  | scan (s) (host : Host σ μ) {job : Job σ} {raw : List Row} {covered : Int → Bool} {scan : Scan μ}
      (hw : s.worker = .sourced job raw covered)
      (h : scanOf host (s.databases job.dbPath) job raw covered = some scan) :
        Step s { s with worker := .scanned job scan }
  | resume (s) {job : Job σ} {scan : Scan μ} {fuel : Nat} {chain : List PreparedLeaf}
      {prep : Prep σ} (hw : s.worker = .scanned job scan)
      (h : s.prep.readyChain fuel job.key job.frontier = some (chain, prep)) :
        Step s { s with prep := prep, worker := .chained job scan chain }
  | takeOver (s) (host : Host σ μ) {job : Job σ} {scan : Scan μ} {chain gone : List PreparedLeaf} {run : Run σ μ}
      (hw : s.worker = .chained job scan chain) (h : takeOver host job scan chain = (run, gone)) :
      Step s { s with prep := dropWasted s.prep job.key gone, worker := .preparing run }
  | choose (s) (host : Host σ μ) {run : Run σ μ} {stop : Nat} (hw : s.worker = .preparing run)
      (h : nextChunk host run = some stop) :
      Step s { s with worker := .calling run stop }
  | summarize (s) (host : Host σ μ) {run : Run σ μ} {stop : Nat} {answers : List Answer} {leaf : PreparedLeaf} {n : Nat}
      (hw : s.worker = .calling run stop) (hgeneration : s.generation run.job = run.job.generation)
      (h : prepareLeaf host run stop answers = some (leaf, n)) : Step s { s with worker := .summarized run leaf n }
  | check (s) {run : Run σ μ} {leaf : PreparedLeaf} {n : Nat} (hw : s.worker = .summarized run leaf n)
      (h : s.generation run.job = run.job.generation) : Step s { s with worker := .checked run leaf n }
  | confirm (s) {run : Run σ μ} {leaf : PreparedLeaf} {n : Nat} (hw : s.worker = .checked run leaf n)
      (h : (s.databases run.job.dbPath).confirms run.job) : Step s { s with worker := .confirmed run leaf n }
  | cache (s) {run : Run σ μ} {leaf : PreparedLeaf} {n : Nat} {prep : Prep σ} (hw : s.worker = .confirmed run leaf n)
      (h : s.prep.cacheLeaf run.job leaf = (true, prep)) :
      Step s { s with
        prep := prep
        worker := .preparing (run.push leaf n)
        prepared := (run.job.key, run.job.generation, leaf) :: s.prepared }

/-- A process starts with an empty cache, over any stores. -/
inductive Reachable : System σ μ → Prop where
  | start (databases : String → Database) : Reachable ⟨Prep.empty, .idle, databases, []⟩
  | step {s s' : System σ μ} (h : Reachable s) (hstep : Step s s') : Reachable s'

end LeafPrep
