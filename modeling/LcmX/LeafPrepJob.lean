import LcmX.LeafPrepChain

/-!
# One job of the worker

What a job has read is a run of the rows of its session, and each leaf that it prepares
continues the leaves before it. None of this is lost when rows are appended.
-/
namespace LeafPrep

/-! ## What a job knows -/

/-- The rows that a job has read are all rows above its frontier, up to the newest one then. -/
def Snapshot (own : List Row) (frontier : Int) (raw : List Row) : Prop :=
  ∃ before after, own = before ++ (raw ++ after) ∧ (∀ r ∈ before, r.storeId ≤ frontier) ∧ ∀ r ∈ raw,
    frontier < r.storeId

structure Scanned {μ : Type} (own : List Row) (frontier : Int) (scan : Scan μ) : Prop where
  raw : Snapshot own frontier scan.raw
  rows : ∃ anchors rest, scan.raw = anchors ++ (scan.rows ++ rest) ∧
    scan.anchors = anchors.map Row.storeId ∧ ∀ r ∈ anchors, r.role = "system"

/-- A leaf of a session, prepared by a job that started at the frontier or behind a leaf that did. -/
structure Coherent (db : Database) (conversation session : String) (frontier : Int) (leaf : PreparedLeaf) : Prop where
  sameSession : leaf.sessionId = session
  sameConversation : leaf.conversationId = conversation
  cuts : Cuts (db.own session conversation) leaf
  low : frontier ≤ leaf.startFrontier
  anchors : leaf.excludedStoreIds = [] ∨ leaf.startFrontier = frontier

section

variable {σ μ : Type}

structure Run.Good (db : Database) (run : Run σ μ) : Prop where
  scanned : Scanned (db.own run.job.sessionId run.job.conversationId) run.job.frontier run.scan
  chain : ∀ leaf ∈ run.chain, Coherent db run.job.conversationId run.job.sessionId run.job.frontier leaf
  covered : (run.scan.rows.take run.position).map Row.storeId = coveredBy run.chain

/-! ## Appended rows -/

/-- The rows of every session only grow at their end. -/
def Grows (db db' : Database) : Prop :=
  ∀ session conversation, ∃ new, db'.own session conversation = db.own session conversation ++ new

theorem Grows.of_same {db db' : Database} (hmessages : db'.messages = db.messages)
    (hlegacy : db'.legacy = db.legacy) : Grows db db' :=
  fun session conversation => ⟨[], by rw [Database.own, Database.own, hmessages, hlegacy, List.append_nil]⟩

theorem Grows.append (db : Database) (row : Row) (h : ∀ r ∈ db.messages, r.storeId < row.storeId) :
    Grows db (db.append row h) :=
  fun _ _ => ⟨_, List.filter_append _ _⟩

variable {db db' : Database}

theorem Snapshot.grow {own : List Row} {frontier : Int} {raw : List Row}
    (h : Snapshot own frontier raw) (new : List Row) :
    Snapshot (own ++ new) frontier raw := by
  obtain ⟨before, after, rfl, hrest⟩ := h
  exact ⟨before, after ++ new, by simp, hrest⟩

theorem Scanned.grow {own : List Row} {frontier : Int} {scan : Scan μ}
    (h : Scanned own frontier scan) (new : List Row) :
    Scanned (own ++ new) frontier scan := ⟨h.raw.grow new, h.rows⟩

theorem Coherent.grow {conversation session : String} {frontier : Int} {leaf : PreparedLeaf}
    (h : Coherent db conversation session frontier leaf)
    (hgrows : Grows db db') : Coherent db' conversation session frontier leaf := by
  obtain ⟨new, hnew⟩ := hgrows session conversation
  exact { h with cuts := hnew ▸ h.cuts.append new }

theorem Run.Good.grow {run : Run σ μ} (h : run.Good db) (hgrows : Grows db db') : run.Good db' := by
  obtain ⟨new, hnew⟩ := hgrows run.job.sessionId run.job.conversationId
  exact ⟨hnew ▸ h.scanned.grow new, fun leaf hleaf => (h.chain leaf hleaf).grow hgrows, h.covered⟩

/-! ## Leaves of one cache -/

section

variable {conversation session : String} {frontier : Int} {chain : List PreparedLeaf}

theorem Coherent.advances {leaf : PreparedLeaf}
    (h : Coherent db conversation session frontier leaf) : leaf.startFrontier < leaf.coveredEnd :=
  h.cuts.advances (own_sorted db session conversation)

/-- A chain out of such leaves excludes nothing behind its first leaf. -/
theorem Coherent.tail {start : Int} (h : ∀ leaf ∈ chain, Coherent db conversation session frontier leaf)
    (hlinked : Linked start chain) :
    ∀ leaf ∈ chain.tail, leaf.excludedStoreIds = [] := by
  intro leaf hleaf
  have hlater := hlinked.tail_lt (fun l hl => (h l hl).advances) leaf hleaf
  have hfirst : frontier ≤ start := by
    cases chain with
    | nil => simp at hleaf
    | cons first chain => exact hlinked.1 ▸ (h first List.mem_cons_self).low
  refine (h leaf (List.mem_of_mem_tail hleaf)).anchors.resolve_right fun he => ?_
  omega

/-- The leaves of a chain are as good as if its own start had been the frontier. -/
theorem Coherent.rebase {start : Int}
    (h : ∀ leaf ∈ chain, Coherent db conversation session frontier leaf) (hlinked : Linked start chain) :
    ∀ leaf ∈ chain, Coherent db conversation session start leaf := by
  intro leaf hleaf
  have hlow := (hlinked.le fun l hl => (h l hl).advances).2 leaf hleaf
  have hfirst : frontier ≤ start := by
    cases chain with
    | nil => cases hleaf
    | cons first chain => exact hlinked.1 ▸ (h first List.mem_cons_self).low
  refine { h leaf hleaf with low := hlow, anchors := (h leaf hleaf).anchors.imp_right fun he => ?_ }
  omega

end

/-- A row is of one session. -/
theorem own_session {session session' conversation conversation' : String} {r r' : Row}
    (hr : r ∈ db.own session conversation)
    (hr' : r' ∈ db.own session' conversation') (h : r.storeId = r'.storeId) : session = session' := by
  have hinj := List.inj_on_of_nodup_map (db.sorted.imp fun hlt => hlt.ne)
  rw [Database.own, List.mem_filter, decide_eq_true_eq] at hr hr'
  have hsame := hinj hr.1 hr'.1 h
  rw [← hr.2.1, hsame, hr'.2.1]

/-! ## Reading the rows -/

theorem Sorted.cut {rows : List Row} (h : Sorted rows) (a : Int) :
    rows = (rows.filter fun row => row.storeId ≤ a) ++ rows.filter fun row => a < row.storeId := by
  induction rows with
  | nil => rfl
  | cons row rows ih =>
    obtain ⟨-, hrest, hless⟩ := Sorted.of_append (u := [row]) h
    by_cases hlow : row.storeId ≤ a
    · have hnot : ¬ a < row.storeId := by omega
      simpa [hlow, hnot] using ih hrest
    · have hall : ∀ r ∈ row :: rows, a < r.storeId := by
        intro r hr
        rcases List.mem_cons.mp hr with rfl | hr
        · omega
        · have := hless row (List.mem_singleton_self _) r hr
          omega
      have hnone : ((row :: rows).filter fun r => r.storeId ≤ a) = [] := by
        simp only [List.filter_eq_nil_iff, decide_eq_true_eq]
        exact fun r hr => by have := hall r hr; omega
      have hself : ((row :: rows).filter fun r => a < r.storeId) = row :: rows := by
        simpa only [List.filter_eq_self, decide_eq_true_eq] using hall
      rw [hnone, hself, List.nil_append]

/-- Below the limit the selection holds all rows above the frontier. -/
theorem select_snapshot {session conversation : String} {frontier : Int} {raw : List Row}
    (h : selectConversationRange db session conversation frontier scanLimit = raw) (hlimit : raw.length < scanLimit) :
    Snapshot (db.own session conversation) frontier raw := by
  have hall : raw = (db.own session conversation).filter fun row => frontier < row.storeId := by
    rw [selectConversationRange] at h
    rw [← h, List.length_take] at hlimit
    rw [← h, List.take_of_length_le (by omega)]
  refine ⟨(db.own session conversation).filter fun row => row.storeId ≤ frontier, [], ?_, ?_, ?_⟩
  · rw [List.append_nil, hall]
    exact (own_sorted db session conversation).cut frontier
  · intro r hr
    simpa using (List.mem_filter.mp hr).2
  · intro r hr
    rw [hall] at hr
    simpa using (List.mem_filter.mp hr).2

theorem take_length_takeWhile {α : Type} (p : α → Bool) (l : List α) : l.take (l.takeWhile p).length = l.takeWhile p :=
  (List.prefix_iff_eq_take.mp (List.takeWhile_prefix p)).symm

variable (host : Host σ μ)

theorem scanOf_scanned {own raw : List Row} {job : Job σ} {covered : Int → Bool} {scan : Scan μ}
    (hraw : Snapshot own job.frontier raw)
    (h : scanOf host db job raw covered = some scan) : Scanned own job.frontier scan := by
  unfold scanOf eligiblePrefix at h
  dsimp only at h
  split at h
  · cases h
  · obtain ⟨need, -, rfl⟩ := Option.map_eq_some_iff.mp h
    refine ⟨hraw, ?_⟩
    dsimp only
    generalize host.freshTailStart job.settings (host.summaryInput job.settings raw) = start
    generalize hkeeps : (fun row => decide ¬ stops host job covered
      ((raw.take start).getLast?.bind fun last => foreignId db job last.storeId) row = true) = keeps
    rw [take_length_takeWhile]
    refine ⟨_, (((raw.take start).drop
      ((raw.take start).takeWhile fun row => row.role = "system").length).dropWhile keeps) ++ raw.drop start, ?_, rfl, ?_⟩
    · rw [← List.append_assoc (List.takeWhile keeps _), List.takeWhile_append_dropWhile, ← List.append_assoc]
      have hfront := List.take_append_drop
        ((raw.take start).takeWhile fun row => row.role = "system").length (raw.take start)
      rw [take_length_takeWhile] at hfront
      rw [hfront, List.take_append_drop]
    · intro r hr
      simpa using List.mem_takeWhile_imp hr

/-! ## Taking over the leaves of the cache -/

theorem take_add_part {α : Type} (l : List α) (position n : Nat) :
    l.take (position + ((l.drop position).take n).length) = l.take position ++ (l.drop position).take n := by
  rw [List.take_add]
  congr 1
  exact (List.prefix_iff_eq_take.mp (List.take_prefix n _)).symm

/-- The leaves that are kept come first, and cover the rows between the positions. -/
theorem validate_spec {fingerprint : String} {rows : List Row} {leaves : List PreparedLeaf}
    {position : Nat} {freed : Int} {kept : List PreparedLeaf}
    {result : Nat × Int} (h : validate host fingerprint rows leaves position freed = (kept, result)) :
    leaves = kept ++ leaves.drop kept.length ∧ (rows.take result.1).map Row.storeId =
    (rows.take position).map Row.storeId ++ coveredBy kept := by
  induction leaves generalizing position freed kept with
  | nil =>
    cases h
    simp [coveredBy]
  | cons leaf leaves ih =>
    unfold validate at h
    dsimp only at h
    split at h
    · cases h
      simp [coveredBy]
    · rename_i hsame
      obtain ⟨hkept, hresult⟩ := Prod.mk.inj h
      obtain ⟨hleaves, hrest⟩ := ih (Prod.ext rfl hresult)
      have hpart := not_not.mp fun hne => hsame (.inl hne)
      rw [← hkept]
      refine ⟨by simpa using hleaves, ?_⟩
      rw [hrest, take_add_part, List.map_append, hpart, List.append_assoc]
      rfl

@[simp] theorem generations_dropWasted (prep : Prep σ) (key : Key) (gone : List PreparedLeaf) :
    (dropWasted prep key gone).generations = prep.generations := by
  rw [dropWasted]
  split
  · rfl
  · rw [Prep.generations_removeLocked]

theorem mem_dropWasted {prep : Prep σ} {key k : Key} {gone : List PreparedLeaf} {l : PreparedLeaf} :
    l ∈ (dropWasted prep key gone).cache.leaves k ↔ l ∈ prep.cache.leaves k ∧ (k = key → l ∉ gone) := by
  rw [dropWasted]
  split
  · rename_i hnone
    simp [hnone]
  · exact Prep.mem_removeLocked none

/-- The leaves that a job takes over are leaves of its own session. -/
theorem takeOver_good {job : Job σ} {scan : Scan μ} {chain gone : List PreparedLeaf} {run : Run σ μ} {session : String}
    (hscan : Scanned (db.own job.sessionId job.conversationId) job.frontier scan)
    (hchain : ∀ leaf ∈ chain, Coherent db job.conversationId session job.frontier leaf)
    (h : takeOver host job scan chain = (run, gone)) :
    run.job = job ∧ run.Good db ∧ chain = run.chain ++ gone := by
  unfold takeOver at h
  dsimp only at h
  obtain ⟨rfl, rfl⟩ := Prod.mk.inj h
  obtain ⟨hkept, hcovered⟩ := @validate_spec σ μ host job.fingerprint scan.rows chain 0 0 _ _ rfl
  rw [List.take_zero, List.map_nil, List.nil_append] at hcovered
  refine ⟨rfl, ⟨hscan, fun leaf hleaf => ?_, hcovered⟩, hkept⟩
  have hgood := hchain leaf (hkept ▸ List.mem_append_left _ hleaf)
  obtain ⟨ids, last, hids, -, -, r', hr', hid'⟩ := hgood.cuts.coveredEnd (own_sorted db session job.conversationId)
  -- its last row is among the rows that the job has read
  have hlast : last ∈ coveredBy (validate host job.fingerprint scan.rows chain 0 0).1 :=
    List.mem_flatMap.mpr ⟨leaf, hleaf, by rw [hids]; simp⟩
  rw [← hcovered] at hlast
  obtain ⟨r, hr, hid⟩ := List.mem_map.mp hlast
  have hown : r ∈ db.own job.sessionId job.conversationId := by
    obtain ⟨before, after, hown, -⟩ := hscan.raw
    obtain ⟨anchors, rest, hraw, -⟩ := hscan.rows
    rw [hown, hraw]
    simp [List.mem_of_mem_take hr]
  obtain rfl := own_session hown hr' (hid.trans hid'.symm)
  exact hgood

/-! ## Preparing a leaf -/

theorem summarize_chunk {settings : σ} {attempts : Nat} {clipBudget : Int} {chunk : List μ}
    {answers : List Answer} {result : LeafSummary μ}
    (h : summarizeLeafChunkWithRescue host settings attempts clipBudget chunk answers = some result) :
      result.chunk ≠ [] := by
  induction attempts generalizing clipBudget chunk answers with
  | zero => cases h
  | succ attempts ih =>
    cases answers with
    | nil => cases h
    | cons answer answers =>
      unfold summarizeLeafChunkWithRescue at h
      dsimp only at h
      split at h
      · cases h
      · rename_i hne
        cases answer with
        | summary text level model contextLengthError =>
          obtain h | h := (ite_eq_or_eq _ _ _).imp (fun he => he.symm.trans h) (fun he => he.symm.trans h)
          · exact ih h
          · obtain rfl := Option.some.inj h
            exact fun hnil => hne (congrArg List.length hnil)
        | exception retryWorthy =>
          obtain h | h := (ite_eq_or_eq _ _ _).imp (fun he => he.symm.trans h) (fun he => he.symm.trans h)
          · exact ih h
          · cases h

theorem followingRow_append {front tail : List Row} {row : Row} (hs : Sorted (front ++ row :: tail)) :
    followingRow (front ++ row :: tail) row.storeId = tail.head? := by
  have hless := hs.of_append.2.2
  have hfront : ∀ r ∈ front, decide (r.storeId ≠ row.storeId) = true :=
    fun r hr => decide_eq_true (hless r hr row List.mem_cons_self).ne
  rw [followingRow, List.dropWhile_append_of_pos hfront, List.dropWhile_cons_of_neg (by simp), List.tail_cons]

/-- A unit ends where its last row and the next stored one are of two host units. -/
theorem unitEnd_spec {raw rows covered front rest : List Row} {position : Nat}
    (hraw : raw = front ++ (covered ++ rest)) (hs : Sorted raw)
    (hcovered : rows.take (position + covered.length) = rows.take position ++ covered) (hne : covered ≠ [])
    (h : unitEnd raw rows (position + covered.length) = some true) :
    ∃ ids last next after, covered = ids ++ [last] ∧ rest = next :: after ∧
      hostUnitBoundary (some last) (some next) = true := by
  obtain ⟨ids, last, rfl⟩ := List.eq_nil_or_concat' covered |>.resolve_left hne
  have hindex : rows[position + (ids ++ [last]).length - 1]? = some last := by
    have hlast : (rows.take (position + (ids ++ [last]).length)).getLast? = some last := by
      rw [hcovered, ← List.append_assoc, List.getLast?_concat]
    have hlong : position + (ids ++ [last]).length ≤ rows.length := by
      have hlength := congrArg List.length hcovered
      simp only [List.length_append, List.length_take, List.length_singleton] at hlength ⊢
      omega
    rw [List.getLast?_eq_getElem?, List.length_take, Nat.min_eq_left hlong, List.getElem?_take] at hlast
    rw [if_pos (by simp only [List.length_append, List.length_singleton]; omega)] at hlast
    exact hlast
  have hpos : position + (ids ++ [last]).length ≠ 0 := by
    rw [List.length_append, List.length_singleton]
    omega
  have hfollowing : followingRow raw last.storeId = rest.head? := by
    have hsplit : raw = (front ++ ids) ++ last :: rest := by rw [hraw]; simp
    rw [hsplit] at hs ⊢
    exact followingRow_append hs
  rw [unitEnd, if_neg hpos, hindex, Option.map_some, hfollowing] at h
  cases rest with
  | nil => simp [hostUnitBoundary] at h
  | cons next after => exact ⟨ids, last, next, after, rfl, rfl, Option.some.inj h⟩

/-- Where the next leaf of a run starts: behind all rows that are covered, and before the others. -/
theorem Run.Good.start {run : Run σ μ} (h : run.Good db) : run.job.frontier ≤ run.startFrontier ∧
    ((run.chain = [] ∧ run.startFrontier = run.job.frontier ∧ run.scan.rows.take run.position = []) ∨
      (run.chain ≠ [] ∧ ∃ front r, run.scan.rows.take run.position = front ++ [r] ∧
      r.storeId = run.startFrontier)) := by
  have hcovered := h.covered
  rcases List.eq_nil_or_concat' run.chain with hnil | ⟨chain, leaf, hconcat⟩
  · have hstart : run.startFrontier = run.job.frontier := by rw [Run.startFrontier, hnil]; rfl
    rw [hnil] at hcovered
    exact ⟨hstart.ge, .inl ⟨hnil, hstart, List.map_eq_nil_iff.mp hcovered⟩⟩
  · have hgood := h.chain leaf (by rw [hconcat]; simp)
    obtain ⟨ids, last, hids, hend, -⟩ := hgood.cuts.coveredEnd (own_sorted db _ _)
    have hstart : run.startFrontier = leaf.coveredEnd := by rw [Run.startFrontier, hconcat, List.getLast?_concat]
    have hlow := hgood.low
    have hadvances := hgood.advances
    refine ⟨by omega, .inr ⟨by rw [hconcat]; simp, ?_⟩⟩
    rw [hconcat, coveredBy, List.flatMap_append, List.flatMap_singleton, hids, ← List.append_assoc] at hcovered
    obtain ⟨front, tail, hsplit, -, htail⟩ := List.map_eq_append_iff.mp hcovered
    obtain ⟨r, rfl, hr⟩ := List.map_eq_singleton_iff.mp htail
    exact ⟨front, r, hsplit, hr.trans (hend.symm.trans hstart.symm)⟩

/-- A prepared leaf continues the leaves of its run. -/
theorem prepareLeaf_good {run : Run σ μ} {stop : Nat} {answers : List Answer} {leaf : PreparedLeaf}
    {n : Nat} (hrun : run.Good db)
    (hposition : run.position < run.scan.rows.length)
    (h : prepareLeaf host run stop answers = some (leaf, n)) : (run.push leaf n).Good db := by
  unfold prepareLeaf at h
  obtain ⟨result, hresult, h⟩ := Option.bind_eq_some_iff.mp h
  have hchunk := List.length_pos_of_ne_nil (summarize_chunk host hresult)
  split at h
  · cases h
  · dsimp only at h
    split at h
    · rename_i hunit
      have hcovered : (run.scan.rows.drop run.position).take result.chunk.length ≠ [] := by
        refine List.ne_nil_of_length_pos ?_
        rw [List.length_take, List.length_drop]
        omega
      have htake := take_add_part run.scan.rows run.position result.chunk.length
      generalize (run.scan.rows.drop run.position).take result.chunk.length = covered at h hunit hcovered htake
      obtain ⟨rfl, rfl⟩ := Prod.mk.inj (Option.some.inj h)
      obtain ⟨before, after, hown, hbefore, habove⟩ := hrun.scanned.raw
      obtain ⟨anchors, rest, hraw, hanchors, hsystem⟩ := hrun.scanned.rows
      have hsorted := own_sorted db run.job.sessionId run.job.conversationId
      have hrows : run.scan.rows = run.scan.rows.take run.position ++
          (covered ++ run.scan.rows.drop (run.position + covered.length)) := by
        rw [← List.append_assoc, ← htake, List.take_append_drop]
      have hsplit : run.scan.raw = (anchors ++ run.scan.rows.take run.position) ++
          (covered ++ (run.scan.rows.drop (run.position + covered.length) ++ rest)) := by
        rw [hraw]
        conv_lhs => rw [hrows]
        simp only [List.append_assoc]
      have hrawSorted : Sorted run.scan.raw := by
        rw [hown] at hsorted
        exact hsorted.of_append.2.1.of_append.1
      obtain ⟨ids, last, next, tail, hids, htail, hboundary⟩ := unitEnd_spec hsplit hrawSorted htake hcovered hunit
      obtain ⟨hlow, hstart⟩ := hrun.start
      have hcuts : Cuts (db.own run.job.sessionId run.job.conversationId) (leafOf host run result covered) := by
        rw [htail, hids] at hsplit
        rw [hsplit] at hown habove
        rcases hstart with ⟨hnil, hfrontier, hnone⟩ | ⟨hne, front, r, hfront, hr⟩
        · rw [hnone, List.append_nil] at hown habove
          refine ⟨before, anchors, ids, last, next, tail ++ after, by rw [hown]; simp, ?_, ?_, ?_,
            hsystem, by rw [hids]; rfl, hboundary⟩
          · exact fun b hb => (hbefore b hb).trans hfrontier.ge
          · intro b hb
            refine hfrontier.le.trans_lt (habove b ?_)
            simp only [List.mem_append, List.mem_cons] at hb ⊢
            tauto
          · rw [leafOf, if_pos hnil, hanchors]
        · rw [hfront] at hown
          rw [hown] at hsorted
          have hcut : before ++ (anchors ++ (front ++ [r]) ++ (ids ++ [last] ++ next :: tail) ++ after) =
              (before ++ anchors ++ front ++ [r]) ++ (ids ++ (last :: next :: (tail ++ after))) := by simp
          rw [hcut] at hown hsorted
          obtain ⟨hfirst, hsecond, hless⟩ := hsorted.of_append
          refine ⟨before ++ anchors ++ front ++ [r], [], ids, last, next, tail ++ after, hown, ?_,
            ?_, ?_, by simp, by rw [hids]; rfl, hboundary⟩
          · intro b hb
            rcases List.mem_append.mp hb with hb | hb
            · exact (hfirst.of_append.2.2 b hb r (List.mem_singleton_self _)).le.trans hr.le
            · rw [List.mem_singleton.mp hb]
              exact hr.le
          · intro b hb
            refine hr.ge.trans_lt (hless r (by simp) b ?_)
            simp only [List.nil_append, List.mem_append, List.mem_cons, List.not_mem_nil, or_false] at hb ⊢
            tauto
          · rw [leafOf, if_neg hne]
            rfl
      refine ⟨hrun.scanned, fun l hl => ?_, ?_⟩
      · rcases List.mem_append.mp hl with hl | hl
        · exact hrun.chain l hl
        · rw [List.mem_singleton.mp hl]
          refine ⟨rfl, rfl, hcuts, hlow, ?_⟩
          rcases hstart with ⟨-, hfrontier, -⟩ | ⟨hne, -⟩
          · exact .inr hfrontier
          · exact .inl (if_neg hne)
      · change (run.scan.rows.take (run.position + covered.length)).map Row.storeId = coveredBy
          (run.chain ++ [leafOf host run result covered])
        rw [htake, List.map_append, hrun.covered, coveredBy, coveredBy, List.flatMap_append, List.flatMap_singleton]
        rfl
    · cases h

end

end LeafPrep
