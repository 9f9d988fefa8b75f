import LcmX.LeafPrepJob

/-!
# Prepared chains are contiguous

What holds between any two steps of the threads, and from it what `ready_chain` gives out.
-/
namespace LeafPrep

variable {σ μ : Type}

/-! ## The invariant -/

/-- The cached leaves of a conversation are of one session, and were prepared under the generation that still lasts. -/
def System.CacheGood (s : System σ μ) : Prop :=
  ∀ key, ∃ session frontier, ∀ leaf ∈ s.prep.cache.leaves key,
    Coherent (s.databases key.1) key.2 session frontier leaf ∧ (key, s.prep.generations key.1, leaf) ∈ s.prepared

/-- No other leaf is in the cache. -/
def System.Only (s : System σ μ) (job : Job σ) (chain : List PreparedLeaf) : Prop :=
  ∀ leaf ∈ s.prep.cache.leaves job.key, leaf ∈ chain

def System.store (s : System σ μ) (job : Job σ) : Database := s.databases job.dbPath

def System.rows (s : System σ μ) (job : Job σ) : List Row := (s.store job).own job.sessionId job.conversationId

/-- What the worker knows. From the check of the cache on, no leaf is there that its chain does not have. -/
def System.WorkerGood (s : System σ μ) : Worker σ μ → Prop
  | .idle | .taken _ | .opened _ | .probed _ | .current _ => True
  | .read job raw | .sourced job raw _ => Snapshot (s.rows job) job.frontier raw
  | .scanned job scan => Scanned (s.rows job) job.frontier scan
  | .chained job scan chain => Scanned (s.rows job) job.frontier scan ∧
      (∃ session, ∀ leaf ∈ chain, Coherent (s.store job) job.conversationId session job.frontier leaf) ∧
        s.Only job chain
  | .preparing run => run.Good (s.store run.job) ∧ s.Only run.job run.chain
  | .calling run _ => run.Good (s.store run.job) ∧ s.Only run.job run.chain ∧ run.position < run.scan.rows.length
  | .summarized run leaf n | .checked run leaf n | .confirmed run leaf n =>
      run.Good (s.store run.job) ∧ s.Only run.job run.chain ∧ (run.push leaf n).Good (s.store run.job)

structure System.Good (s : System σ μ) : Prop where
  cache : s.CacheGood
  worker : s.WorkerGood s.worker

/-! ## Steps of other threads -/

/-- Nothing enters the cache, and the stores only grow. -/
structure Weaker (s s' : System σ μ) : Prop where
  shrinks : ∀ key leaf, leaf ∈ s'.prep.cache.leaves key →
    leaf ∈ s.prep.cache.leaves key ∧ s'.prep.generations key.1 = s.prep.generations key.1
  grows : ∀ path, Grows (s.databases path) (s'.databases path)
  prepared : s'.prepared = s.prepared

theorem Grows.refl (db : Database) : Grows db db := Grows.of_same rfl rfl

section

variable {s s' : System σ μ}

theorem Weaker.cacheGood (h : Weaker s s') (hgood : s.CacheGood) : s'.CacheGood := by
  intro key
  obtain ⟨session, frontier, hleaves⟩ := hgood key
  refine ⟨session, frontier, fun leaf hleaf => ?_⟩
  obtain ⟨hold, hgeneration⟩ := h.shrinks key leaf hleaf
  obtain ⟨hcoherent, hlog⟩ := hleaves leaf hold
  rw [h.prepared, hgeneration]
  exact ⟨hcoherent.grow (h.grows key.1), hlog⟩

theorem Weaker.only (h : Weaker s s') {job : Job σ} {chain : List PreparedLeaf}
    (honly : s.Only job chain) : s'.Only job chain :=
  fun leaf hleaf => honly leaf (h.shrinks job.key leaf hleaf).1

/-- A worker stays good while nothing enters the cache and the stores only grow. -/
theorem Weaker.workerGood (h : Weaker s s') {worker : Worker σ μ} (hgood : s.WorkerGood worker) :
    s'.WorkerGood worker := by
  have hrows : ∀ job : Job σ, ∃ new, s'.rows job = s.rows job ++ new :=
    fun job => h.grows job.dbPath job.sessionId job.conversationId
  have hstore : ∀ job : Job σ, Grows (s.store job) (s'.store job) := fun job => h.grows job.dbPath
  cases worker with
  | idle => trivial
  | taken job => trivial
  | opened job => trivial
  | probed job => trivial
  | current job => trivial
  | read job raw =>
    obtain ⟨new, hnew⟩ := hrows job
    rw [System.WorkerGood, hnew]
    exact Snapshot.grow hgood new
  | sourced job raw covered =>
    obtain ⟨new, hnew⟩ := hrows job
    rw [System.WorkerGood, hnew]
    exact Snapshot.grow hgood new
  | scanned job scan =>
    obtain ⟨new, hnew⟩ := hrows job
    rw [System.WorkerGood, hnew]
    exact Scanned.grow hgood new
  | chained job scan chain =>
    obtain ⟨new, hnew⟩ := hrows job
    obtain ⟨hscan, ⟨session, hchain⟩, honly⟩ := hgood
    exact ⟨hnew ▸ hscan.grow new, ⟨session, fun leaf hleaf => (hchain leaf hleaf).grow (hstore job)⟩, h.only honly⟩
  | preparing run => exact ⟨hgood.1.grow (hstore _), h.only hgood.2⟩
  | calling run stop => exact ⟨hgood.1.grow (hstore _), h.only hgood.2.1, hgood.2.2⟩
  | summarized run leaf n => exact ⟨hgood.1.grow (hstore _), h.only hgood.2.1, hgood.2.2.grow (hstore _)⟩
  | checked run leaf n => exact ⟨hgood.1.grow (hstore _), h.only hgood.2.1, hgood.2.2.grow (hstore _)⟩
  | confirmed run leaf n => exact ⟨hgood.1.grow (hstore _), h.only hgood.2.1, hgood.2.2.grow (hstore _)⟩

theorem Weaker.good (h : Weaker s s') (hworker : s'.worker = s.worker) (hgood : s.Good) : s'.Good :=
  ⟨h.cacheGood hgood.cache, hworker ▸ h.workerGood hgood.worker⟩

/-- A step inside the cache alone. -/
theorem Weaker.of_prep {prep : Prep σ} (h : ∀ key leaf, leaf ∈ prep.cache.leaves key →
    leaf ∈ s.prep.cache.leaves key ∧ prep.generations key.1 = s.prep.generations key.1) (worker : Worker σ μ) :
    Weaker s { s with prep := prep, worker := worker } := ⟨h, fun _ => Grows.refl _, rfl⟩

theorem Weaker.of_store {path : String} {db : Database} (h : Grows (s.databases path) db) :
    Weaker s (s.setDatabase path db) := by
  refine ⟨fun key leaf hleaf => ⟨hleaf, rfl⟩, fun other => ?_, rfl⟩
  rw [System.setDatabase]
  dsimp only
  split
  · rename_i he
    exact he ▸ h
  · exact Grows.refl _

/-! ## Every step -/

/-- A step keeps the ready leaves chained. -/
theorem Step.good (h : Step s s') (hgood : s.Good) : s'.Good := by
  have hsame : ∀ worker : Worker σ μ, s.WorkerGood worker → System.Good { s with worker := worker } :=
    fun worker hworker => ⟨hgood.cache, hworker⟩
  have hw' := hgood.worker
  cases h with
  | enqueue job =>
    refine (Weaker.of_prep (fun key leaf hleaf => ?_) s.worker).good rfl hgood
    rw [Prep.leaves_enqueue] at hleaf
    exact ⟨hleaf, by rw [Prep.generations_enqueue]⟩
  | discard dbPath =>
    refine (Weaker.of_prep (fun key leaf hleaf => ?_) s.worker).good rfl hgood
    obtain ⟨hold, hother⟩ := Prep.mem_discard dbPath |>.mp hleaf
    exact ⟨hold, if_neg hother⟩
  | readyChain hready =>
    refine (Weaker.of_prep (fun key leaf hleaf => ?_) s.worker).good rfl hgood
    exact ⟨((Prep.mem_readyChain hready).mp hleaf).1, by rw [Prep.generations_readyChain hready]⟩
  | reject key leaves reason =>
    refine (Weaker.of_prep (fun key leaf hleaf => ?_) s.worker).good rfl hgood
    exact ⟨((Prep.mem_removeLocked _).mp hleaf).1, by rw [Prep.reject, Prep.generations_removeLocked]⟩
  | promoted key leaf =>
    refine (Weaker.of_prep (fun key leaf hleaf => ?_) s.worker).good rfl hgood
    exact ⟨(Prep.mem_promoted.mp hleaf).1, by rw [Prep.generations_promoted]⟩
  | append path row hnew => exact (Weaker.of_store (Grows.append _ row hnew)).good rfl hgood
  | lifecycle path rows =>
    have hgrows : Grows (s.databases path) { s.databases path with lifecycle := rows } := Grows.of_same rfl rfl
    exact (Weaker.of_store hgrows).good rfl hgood
  | nodes path covered =>
    have hgrows : Grows (s.databases path) { s.databases path with covered := covered } := Grows.of_same rfl rfl
    exact (Weaker.of_store hgrows).good rfl hgood
  | leave => exact hsame .idle trivial
  | take hw hjob => exact ⟨hgood.cache, trivial⟩
  | opens hw hgeneration => exact hsame _ trivial
  | probe hw hgeneration => exact hsame _ trivial
  | isCurrent hw hconfirms => exact hsame _ trivial
  | select hw hraw hlimit => exact hsame _ (select_snapshot hraw hlimit)
  | source hw =>
    rw [hw] at hw'
    exact hsame _ hw'
  | scan host hw hscan =>
    rw [hw] at hw'
    exact hsame _ (scanOf_scanned host hw' hscan)
  | resume hw hready =>
    rw [hw] at hw'
    rename_i job scan fuel chain prep
    obtain ⟨hlinked, hmem⟩ := Prep.readyChain_spec hready
    obtain ⟨session, frontier, hleaves⟩ := hgood.cache job.key
    have hchain := Coherent.rebase (fun leaf hleaf => (hleaves leaf (hmem leaf hleaf)).1) hlinked
    have hweaker := @Weaker.of_prep σ μ s prep (fun key leaf hleaf =>
      ⟨((Prep.mem_readyChain hready).mp hleaf).1, by rw [Prep.generations_readyChain hready]⟩) (.chained job scan chain)
    exact ⟨hweaker.cacheGood hgood.cache, hw', ⟨session, hchain⟩,
      fun leaf hleaf => ((Prep.mem_readyChain hready).mp hleaf).2 rfl⟩
  | takeOver host hw htake =>
    rw [hw] at hw'
    rename_i job scan chain gone run
    obtain ⟨hscan, ⟨session, hchain⟩, honly⟩ := hw'
    obtain ⟨hjob, hrun, hsplit⟩ := takeOver_good host hscan hchain htake
    have hweaker := @Weaker.of_prep σ μ s (dropWasted s.prep job.key gone)
      (fun key leaf hleaf => ⟨(mem_dropWasted.mp hleaf).1, by rw [generations_dropWasted]⟩) (.preparing run)
    refine ⟨hweaker.cacheGood hgood.cache, hjob ▸ hrun, fun leaf hleaf => ?_⟩
    rw [hjob] at hleaf
    obtain ⟨hold, hnot⟩ := mem_dropWasted.mp hleaf
    have hin := honly leaf hold
    rw [hsplit] at hin
    exact (List.mem_append.mp hin).resolve_right (hnot rfl)
  | choose host hw hnext =>
    rw [hw] at hw'
    refine hsame _ ⟨hw'.1, hw'.2, ?_⟩
    rw [nextChunk] at hnext
    split at hnext
    · rename_i hguard
      exact hguard.2.2
    · cases hnext
  | summarize host hw hgeneration hprepare =>
    rw [hw] at hw'
    exact hsame _ ⟨hw'.1, hw'.2.1, prepareLeaf_good host hw'.1 hw'.2.2 hprepare⟩
  | check hw hgeneration =>
    rw [hw] at hw'
    exact hsame _ hw'
  | confirm hw hconfirms =>
    rw [hw] at hw'
    exact hsame _ hw'
  | cache hw hcache =>
    rw [hw] at hw'
    rename_i run leaf n prep
    obtain ⟨hrun, honly, hpush⟩ := hw'
    obtain ⟨hgeneration, hgenerations, hleaves⟩ := Prep.cacheLeaf_spec hcache
    have hchain : ∀ l ∈ prep.cache.leaves run.job.key, l ∈ (run.push leaf n).chain := by
      intro l hl
      rcases hleaves _ l hl with hl | ⟨-, rfl⟩
      · exact List.mem_append_left _ (honly l hl)
      · exact List.mem_append_right _ (List.mem_singleton_self _)
    refine ⟨fun key => ?_, hpush, hchain⟩
    by_cases hkey : key = run.job.key
    · subst hkey
      refine ⟨run.job.sessionId, run.job.frontier, fun l hl => ⟨hpush.chain l (hchain l hl), ?_⟩⟩
      dsimp only
      rw [hgenerations]
      rcases hleaves _ l hl with hl | ⟨-, rfl⟩
      · obtain ⟨_, _, hold⟩ := hgood.cache run.job.key
        exact List.mem_cons_of_mem _ (hold l hl).2
      · exact List.mem_cons.mpr (.inl (by rw [← hgeneration]; rfl))
    · obtain ⟨session, frontier, hold⟩ := hgood.cache key
      refine ⟨session, frontier, fun l hl => ?_⟩
      have hl := (hleaves key l hl).resolve_right fun h => hkey h.1
      dsimp only
      rw [hgenerations]
      exact ⟨(hold l hl).1, List.mem_cons_of_mem _ (hold l hl).2⟩

end

theorem Reachable.good {s : System σ μ} (h : Reachable s) : s.Good := by
  induction h with
  | start databases => exact ⟨fun key => ⟨"", 0, fun leaf hleaf => by cases hleaf⟩, trivial⟩
  | step _ hstep ih => exact hstep.good ih

/-! ## What `ready_chain` gives out -/

/-- A chain from the frontier. Its first leaf may exclude system prompts; all other rows of the
session up to its end are covered, in order, and each leaf ends where the host ends a unit. -/
structure Contiguous (db : Database) (conversation session : String) (frontier : Int)
    (chain : List PreparedLeaf) : Prop where
  owner : ∀ leaf ∈ chain, leaf.sessionId = session ∧ leaf.conversationId = conversation
  linked : Linked frontier chain
  filled : ∀ leaf ∈ chain, leaf.coveredStoreIds ≠ []
  increasing : (coveredBy chain).Pairwise (· < ·)
  above : ∀ id ∈ coveredBy chain, frontier < id
  rows : ((db.own session conversation).filter fun row => frontier < row.storeId ∧
    row.storeId ≤ endOf frontier chain).map Row.storeId =
    excludedBy chain ++ coveredBy chain
  anchors : ∀ row ∈ db.own session conversation, row.storeId ∈ excludedBy chain → row.role = "system"
  boundary : ∀ leaf ∈ chain, EndsUnit (db.own session conversation) leaf

theorem Cuts.anchors {own : List Row} {leaf : PreparedLeaf} (h : Cuts own leaf) (hs : Sorted own) :
    ∀ row ∈ own, row.storeId ∈ leaf.excludedStoreIds → row.role = "system" := by
  intro row hrow hid
  obtain ⟨before, anchors, covered, last, next, after, hown, -, -, hexcluded, hsystem, -⟩ := h
  rw [hexcluded] at hid
  obtain ⟨r, hr, hsame⟩ := List.mem_map.mp hid
  have hmem : r ∈ own := by
    rw [hown]
    simp [hr]
  have hinj := List.inj_on_of_nodup_map (hs.imp fun hlt => hlt.ne)
  exact hinj hmem hrow hsame ▸ hsystem r hr

theorem contiguous_of_coherent {db : Database} {conversation session : String}
    {frontier start : Int} {chain : List PreparedLeaf}
    (h : ∀ leaf ∈ chain, Coherent db conversation session start leaf) (hlinked : Linked frontier chain) :
    Contiguous db conversation session frontier chain := by
  have hs := own_sorted db session conversation
  have hrange := hlinked.range hs (fun leaf hleaf => (h leaf hleaf).cuts) (Coherent.tail h hlinked)
  have hsorted : (excludedBy chain ++ coveredBy chain).Pairwise (· < ·) :=
    hrange ▸ hs.sublist (List.filter_sublist.map _)
  refine ⟨fun leaf hleaf => ⟨(h leaf hleaf).sameSession, (h leaf hleaf).sameConversation⟩, hlinked,
    fun leaf hleaf => ?_,
    (List.pairwise_append.mp hsorted).2.1, fun id hid => ?_, hrange, fun row hrow hid => ?_,
      fun leaf hleaf => (h leaf hleaf).cuts.endsUnit hs⟩
  · obtain ⟨ids, last, hids, -⟩ := (h leaf hleaf).cuts.coveredEnd hs
    rw [hids]
    simp
  · have hin : id ∈ excludedBy chain ++ coveredBy chain := List.mem_append_right _ hid
    rw [← hrange] at hin
    obtain ⟨row, hrow, rfl⟩ := List.mem_map.mp hin
    rw [List.mem_filter, decide_eq_true_eq] at hrow
    exact hrow.2.1
  · cases chain with
    | nil => cases hid
    | cons leaf chain => exact (h leaf List.mem_cons_self).cuts.anchors hs row hrow hid

/-! ## Generations -/

abbrev Steps : System σ μ → System σ μ → Prop := Relation.ReflTransGen Step

/-- A step keeps what has been cached, adds it under the present generation, and lowers no generation. -/
theorem Step.log {s s' : System σ μ} (h : Step s s') :
    (∃ new, s'.prepared = new ++ s.prepared ∧ ∀ e ∈ new, e.2.1 = s'.prep.generations e.1.1) ∧
      ∀ path, s.prep.generations path ≤ s'.prep.generations path := by
  have hsame : ∀ {prep : Prep σ}, prep.generations = s.prep.generations →
      (∃ new, s.prepared = new ++ s.prepared ∧ ∀ e ∈ new, e.2.1 = prep.generations e.1.1) ∧
        ∀ path, s.prep.generations path ≤ prep.generations path :=
    fun he => ⟨⟨[], rfl, by simp⟩, fun path => he ▸ le_refl _⟩
  cases h with
  | enqueue job => exact hsame (Prep.generations_enqueue job)
  | discard dbPath =>
    refine ⟨⟨[], rfl, by simp⟩, fun path => ?_⟩
    dsimp only [Prep.discard]
    split
    · omega
    · exact le_refl _
  | readyChain hready => exact hsame (Prep.generations_readyChain hready)
  | reject key leaves reason => exact hsame (Prep.generations_removeLocked _)
  | promoted key leaf => exact hsame Prep.generations_promoted
  | resume hw hready => exact hsame (Prep.generations_readyChain hready)
  | takeOver host hw htake => exact hsame (generations_dropWasted _ _ _)
  | cache hw hcache =>
    obtain ⟨hgeneration, hgenerations, -⟩ := Prep.cacheLeaf_spec hcache
    refine ⟨⟨[_], rfl, fun e he => ?_⟩, fun path => hgenerations ▸ le_refl _⟩
    rw [List.mem_singleton.mp he]
    dsimp only
    rw [hgenerations]
    exact hgeneration.symm
  | _ => exact hsame rfl

theorem Steps.log {s s' : System σ μ} (h : Steps s s') :
    (∃ new, s'.prepared = new ++ s.prepared) ∧ ∀ path, s.prep.generations path ≤ s'.prep.generations path := by
  induction h with
  | refl => exact ⟨⟨[], rfl⟩, fun _ => le_refl _⟩
  | tail _ hstep ih =>
    obtain ⟨⟨new, hnew⟩, hle⟩ := ih
    obtain ⟨⟨more, hmore, -⟩, hle'⟩ := hstep.log
    exact ⟨⟨more ++ new, by rw [hmore, hnew, List.append_assoc]⟩, fun path => (hle path).trans (hle' path)⟩

theorem Reachable.generation_le {s : System σ μ} (h : Reachable s) :
    ∀ e ∈ s.prepared, e.2.1 ≤ s.prep.generations e.1.1 := by
  induction h with
  | start databases => simp
  | step _ hstep ih =>
    obtain ⟨⟨new, hnew, hgeneration⟩, hle⟩ := hstep.log
    intro e he
    rw [hnew] at he
    rcases List.mem_append.mp he with he | he
    · exact (hgeneration e he).le
    · exact (ih e he).trans (hle _)

/-- In every state `ready_chain` ends with a contiguous chain. Each leaf of it was prepared under
the present generation, and after a discard no other leaf than those that were cached since then. -/
theorem readyChain_contiguous {s : System σ μ} (hs : Reachable s) (dbPath conversation : String) (frontier : Int) :
    ∃ chain prep session, (∀ fuel, (s.prep.cache.leaves (dbPath, conversation)).length < fuel →
        s.prep.readyChain fuel (dbPath, conversation) frontier = some (chain, prep)) ∧
      Contiguous (s.databases dbPath) conversation session frontier chain ∧
      (∀ leaf ∈ chain, ((dbPath, conversation), s.prep.generations dbPath, leaf) ∈ s.prepared) ∧
      ∀ s₀ : System σ μ, Reachable s₀ → Steps { s₀ with prep := s₀.prep.discard dbPath } s →
        ∃ since, s.prepared = since ++ s₀.prepared ∧ ∀ leaf ∈ chain,
          ((dbPath, conversation), s.prep.generations dbPath, leaf) ∈ since := by
  obtain ⟨session, start, hleaves⟩ := hs.good.cache (dbPath, conversation)
  obtain ⟨chain, prep, hready⟩ := s.prep.readyChain_total
    (dbPath, conversation) frontier fun leaf hleaf => (hleaves leaf hleaf).1.advances
  obtain ⟨hlinked, hmem⟩ := Prep.readyChain_spec (hready _ (Nat.lt_succ_self _))
  have hprepared : ∀ leaf ∈ chain, ((dbPath, conversation), s.prep.generations dbPath, leaf) ∈ s.prepared :=
    fun leaf hleaf => (hleaves leaf (hmem leaf hleaf)).2
  refine ⟨chain, prep, session, hready, contiguous_of_coherent
    (fun leaf hleaf => (hleaves leaf (hmem leaf hleaf)).1) hlinked, hprepared, ?_⟩
  intro s₀ hs₀ hsteps
  obtain ⟨⟨since, hsince⟩, hle⟩ := hsteps.log
  refine ⟨since, hsince, fun leaf hleaf => ?_⟩
  have hin := hprepared leaf hleaf
  rw [hsince] at hin
  refine (List.mem_append.mp hin).resolve_right fun hold => ?_
  have hthen := hs₀.generation_le _ hold
  have hnow := hle dbPath
  simp only [Prep.discard, if_true] at hthen hnow
  omega

/-! ## A run -/

def teaRow (storeId : Int) (role content : String) : Row :=
  ⟨storeId, "s", some "tea", role, some content, none, none, none⟩

/-- Five rows of one session; the last one is the fresh tail. -/
def teaRows : List Row :=
  [teaRow 1 "user" "tea", teaRow 2 "assistant" "green", teaRow 3 "user" "milk",
    teaRow 4 "assistant" "cold", teaRow 5 "user" "thanks"]

def teaStore : Database where
  messages := teaRows
  sorted := by decide
  legacy := []
  lifecycle := KeyedTable.empty.insert "tea" ⟨some "s", none, 0, 0, none, 0, none, none, none, none, none, none, 0⟩
  covered _ := false

def teaHost : Host Unit Row where
  summaryInput _ rows := rows
  freshTailStart _ messages := messages.length - 1
  excludedFromSummaryInput _ _ _ := false
  countMessagesTokens messages := messages.length
  countTokens text := text.length
  workingLeafChunkTokens _ _ := 2
  tokensToFree _ _ := some 1
  selectOldestLeafChunk messages tokens := messages.take tokens.toNat
  leafChunkTokens _ := 2
  nextLeafRescueChunk _ _ _ _ := []
  serialize _ _ _ := ("tea: green", false)
  coverageDigest rows := toString (rows.map Prod.fst)

def teaJob : Job Unit := ⟨"lcm.db", "s", "tea", 0, 0, "route", ()⟩

def teaScan : Scan Row := ⟨teaRows, [], teaRows.take 4, teaRows.take 4, 2, 1⟩

def teaRun : Run Unit Row := ⟨teaJob, teaScan, [], 0, 0⟩

def teaLeaf : PreparedLeaf := leafOf teaHost teaRun ⟨teaRows.take 2, 2, "tea", 1, "m", false⟩ (teaRows.take 2)

def milkRun : Run Unit Row := teaRun.push teaLeaf 2

def milkLeaf : PreparedLeaf :=
  leafOf teaHost milkRun ⟨(teaRows.take 4).drop 2, 2, "milk", 1, "m", false⟩ ((teaRows.take 4).drop 2)

theorem tea_prepared : ∃ s : System Unit Row,
    Reachable s ∧ s.databases "lcm.db" = teaStore ∧ s.prep.cache.leaves ("lcm.db", "tea") = [teaLeaf, milkLeaf] := by
  have hselect : selectConversationRange teaStore "s" "tea" 0 scanLimit = teaRows := by decide +kernel
  have hscan : scanOf teaHost teaStore teaJob teaRows (fun _ => false) = some teaScan := rfl
  have htake : takeOver teaHost teaJob teaScan [] = (teaRun, []) := rfl
  have hnext : nextChunk teaHost teaRun = some 2 := by decide +kernel
  have hleaf : prepareLeaf teaHost teaRun 2 [.summary "tea" 1 "m" false] = some (teaLeaf, 2) := by rfl
  have hnext' : nextChunk teaHost milkRun = some 4 := by decide +kernel
  have hleaf' : prepareLeaf teaHost milkRun 4 [.summary "milk" 1 "m" false] = some (milkLeaf, 2) := by rfl
  have h0 : Reachable (⟨Prep.empty, .idle, fun _ => teaStore, []⟩ : System Unit Row) :=
    Reachable.start fun _ => teaStore
  have h1 := h0.step (.enqueue _ teaJob)
  have h2 := h1.step (.take _ rfl rfl)
  have h3 := h2.step (.opens _ rfl rfl)
  have h4 := h3.step (.probe _ rfl rfl)
  have h5 := h4.step (.isCurrent _ rfl (by decide +kernel))
  have h6 := h5.step (.select _ rfl hselect (by decide +kernel))
  have h7 := h6.step (.source _ rfl)
  have h8 := h7.step (.scan _ teaHost rfl hscan)
  have h9 := h8.step (.resume _ rfl (show Prep.readyChain _ 1 _ _ = some ([], _) from rfl))
  have h10 := h9.step (.takeOver _ teaHost rfl htake)
  have h11 := h10.step (.choose _ teaHost rfl hnext)
  have h12 := h11.step (.summarize _ teaHost rfl rfl hleaf)
  have h13 := h12.step (.check _ rfl rfl)
  have h14 := h13.step (.confirm _ rfl (by decide +kernel))
  have h15 := h14.step (.cache _ rfl rfl)
  have h16 := h15.step (.choose _ teaHost rfl hnext')
  have h17 := h16.step (.summarize _ teaHost rfl rfl hleaf')
  have h18 := h17.step (.check _ rfl rfl)
  have h19 := h18.step (.confirm _ rfl (by decide +kernel))
  have h20 := h19.step (.cache _ rfl rfl)
  exact ⟨_, h20, rfl, rfl⟩

theorem readyChain_contiguous_tea : ∃ s : System Unit Row, ∃ chain prep session,
    (∀ fuel, 2 < fuel → s.prep.readyChain fuel ("lcm.db", "tea") 0 = some (chain, prep)) ∧ chain = [teaLeaf, milkLeaf] ∧
      Contiguous teaStore "tea" session 0 chain := by
  obtain ⟨s, hs, hstore, hleaves⟩ := tea_prepared
  obtain ⟨chain, prep, session, hready, hchain, -⟩ := readyChain_contiguous hs "lcm.db" "tea" 0
  rw [hleaves] at hready
  rw [hstore] at hchain
  refine ⟨s, chain, prep, session, hready, ?_, hchain⟩
  have hwalk := hready 3 (by decide)
  unfold Prep.readyChain at hwalk
  rw [hleaves, if_neg (List.cons_ne_nil _ _)] at hwalk
  obtain ⟨found, hfound, he⟩ := Option.map_eq_some_iff.mp hwalk
  have hboth : Prep.walk [teaLeaf, milkLeaf] 3 0 = some [teaLeaf, milkLeaf] := by decide +kernel
  exact (Prod.mk.inj he).1.symm.trans (Option.some.inj (hfound.symm.trans hboth))

end LeafPrep
