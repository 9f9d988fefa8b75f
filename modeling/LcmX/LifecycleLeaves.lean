import Mathlib.Order.Bounds.Basic
import LcmX.LifecycleProtocol

/-!
# Leaves claim every row once

A publication commits node, provenance and frontier together. Over a whole run
the committed leaves of one session have disjoint sources, and each leaf accounts
for every owned row up to its frontier.
-/
namespace Lifecycle

/-! ## Sorted id lists -/

@[simp] theorem mem_sortedSet {l : List Int} {id : Int} : id ∈ sortedSet l ↔ id ∈ l := by
  simp [sortedSet]

theorem sorted_sortedSet (l : List Int) : (sortedSet l).Pairwise (· ≤ ·) := List.pairwise_mergeSort' (· ≤ ·) l.dedup

theorem getLast_greatest {l : List Int} (hsorted : l.Pairwise (· ≤ ·)) (hne : l ≠ []) :
    ∀ id ∈ l, id ≤ l.getLast hne := by
  induction l with
  | nil => exact absurd rfl hne
  | cons a l ih =>
    obtain ⟨ha, hsorted⟩ := List.pairwise_cons.mp hsorted
    intro id hid
    cases l with
    | nil => exact (List.mem_singleton.mp hid).le
    | cons b l =>
      rw [List.getLast_cons (by simp)]
      cases List.mem_cons.mp hid with
      | inl he =>
        subst he
        exact ha _ (List.getLast_mem _)
      | inr hin => exact ih hsorted (by simp) id hin

/-! ## Conversation ids in normal form -/

theorem strip_strip (s : String) : strip (strip s) = strip s := by
  simp only [strip, String.toList_ofList]
  congr 1
  generalize s.toList = l
  -- What remains neither starts nor ends with a space.
  have hfront : ((l.dropWhile isSpace).rdropWhile isSpace).dropWhile isSpace =
      (l.dropWhile isSpace).rdropWhile isSpace := by
    rw [List.dropWhile_eq_self_iff]
    intro hpos
    have htrim := List.rdropWhile_prefix isSpace (l := l.dropWhile isSpace)
    have hhead := List.dropWhile_eq_self_iff.mp (List.dropWhile_idempotent isSpace l) (hpos.trans_le htrim.length_le)
    rw [htrim.getElem]
    exact hhead
  rw [hfront, List.rdropWhile_idempotent]

/-- The list holds every stored conversation id that is not in normal form. -/
def Complete (legacy : List (Option String)) (db : Db) : Prop :=
  ∀ id m, db.messages.get id = some m → (∀ v ∈ m.conversationId, v ≠ strip v) → m.conversationId ∈ legacy

theorem complete_probe (db : Db) : Complete (legacyConversationIds db) db := by
  intro id m hm hlegacy
  simp only [legacyConversationIds, List.mem_filter, List.mem_map]
  refine ⟨⟨(id, m), KeyedTable.get_eq_some.mp hm, rfl⟩, ?_⟩
  rw [Option.all_eq_true]
  intro v hv
  simpa using hlegacy v hv

/-- With a complete list the clause lets through exactly the conversation's rows and the blank ones. -/
theorem ownedConversation_of_normalize {legacy : List (Option String)} {db : Db}
    (hcomplete : Complete legacy db) {id : Int}
    {m : Message} (hm : db.messages.get id = some m) {conversation : String}
    (h : normalizeConversationId m.conversationId = strip conversation ∨
      normalizeConversationId m.conversationId = "") :
    ownedConversation legacy conversation m.conversationId = true := by
  simp only [ownedConversation, decide_eq_true_eq]
  by_cases hlegacy : ∀ v ∈ m.conversationId, v ≠ strip v
  · exact .inr (.inr ⟨hcomplete id m hm hlegacy, h⟩)
  · push Not at hlegacy
    obtain ⟨v, hv, hnormal⟩ := hlegacy
    rw [Option.mem_def] at hv
    rw [hv, normalizeConversationId, Option.getD_some, ← hnormal] at h
    rw [hv]
    cases h with
    | inl he => exact .inl (congrArg some he)
    | inr he => exact .inr (.inl (congrArg some he))

/-! ## What a committed leaf accounts for -/

/-- The row belongs to the publishing session: its own or in an allowed carried range, of this conversation or blank. -/
def Publication.Owns (p : Publication) (id : Int) (m : Message) : Prop :=
  (m.sessionId = p.sessionId ∨ ∃ r ∈ p.carriedRanges, r.1 ≠ "" ∧ 0 ≤ r.2.1 ∧ m.sessionId = r.1 ∧
    r.2.1 < id ∧ id ≤ r.2.2) ∧
    (normalizeConversationId m.conversationId = strip p.conversationId ∨ normalizeConversationId m.conversationId = "")

variable {p : Publication} {now : Int} {db' : Db}

theorem mem_authoritativeIds {legacy : List (Option String)} {db : Db} (hcomplete : Complete legacy db)
    {id : Int} {m : Message} (hm : db.messages.get id = some m) (howns : p.Owns id m) (hlow : p.expectedFrontier < id)
    (hhigh : id ≤ p.coveredEnd) : id ∈ authoritativeIds p legacy db := by
  rw [authoritativeIds, mem_sortedSet, List.mem_map]
  refine ⟨(id, m), List.mem_filter.mpr ⟨KeyedTable.get_eq_some.mp hm, ?_⟩, rfl⟩
  simp only [decide_eq_true_eq]
  refine ⟨?_, ownedConversation_of_normalize hcomplete hm howns.2⟩
  cases howns.1 with
  | inl hown => exact ⟨_, List.mem_cons_self, hown, hlow, hhigh⟩
  | inr hcarried =>
    obtain ⟨r, hr, hsource, hstart, howner, hfrom, hto⟩ := hcarried
    refine ⟨(r.1, max p.expectedFrontier r.2.1, min p.coveredEnd r.2.2), List.mem_cons_of_mem _ ?_, howner,
      max_lt hlow hfrom, le_min hhigh hto⟩
    simp only [Publication.allowedCarryRanges, List.mem_filter, List.mem_map, decide_eq_true_eq]
    exact ⟨⟨r, ⟨hr, hsource, hstart, by omega⟩, rfl⟩, by omega⟩

theorem Publication.expectedFrontier_nonneg (p : Publication) : 0 ≤ p.expectedFrontier := le_max_left _ _

theorem Publication.mem_coveredIds {id : Int} :
    id ∈ p.coveredIds ↔ id ∈ p.covered ∧ p.expectedFrontier < id := by
  have hnonneg := p.expectedFrontier_nonneg
  simp only [coveredIds, allCoveredIds, List.mem_filter, mem_sortedSet, decide_eq_true_eq]
  constructor
  · exact fun h => ⟨h.1.1, h.2⟩
  · exact fun h => ⟨⟨h.1, by omega⟩, h.2⟩

theorem Publication.mem_excludedIds {id : Int} :
    id ∈ p.excludedIds ↔ id ∈ p.excluded ∧ p.expectedFrontier < id ∧ id ≤ p.coveredEnd := by
  simp [excludedIds]

theorem checkSources_ok {db : Db} (h : checkSources p db = .ok ()) :
    p.allCoveredIds ≠ [] ∧ ∀ id ∈ p.coveredIds, id ∉ p.excludedIds := by
  unfold checkSources at h
  split at h
  · cases h
  · next hsome =>
    split at h
    · cases h
    · next hdisjoint =>
      push Not at hdisjoint
      exact ⟨hsome, hdisjoint⟩

/-- The end of the coverage is the expected frontier or the largest covered id. -/
theorem Publication.coveredEnd_eq (h : p.allCoveredIds ≠ []) :
    ∃ largest, IsGreatest {id | id ∈ p.covered} largest ∧ p.coveredEnd = max p.expectedFrontier largest := by
  have hlast : p.allCoveredIds.getLast h ∈ p.covered ∧ 0 < p.allCoveredIds.getLast h := by
    have hin : p.allCoveredIds.getLast h ∈ sortedSet (p.covered.filter (0 < ·)) := List.getLast_mem h
    simpa using hin
  refine ⟨p.allCoveredIds.getLast h, ⟨hlast.1, ?_⟩, ?_⟩
  · intro id hid
    by_cases hpos : 0 < id
    · apply getLast_greatest (sorted_sortedSet _) h
      simpa using ⟨hid, hpos⟩
    · exact (le_of_not_gt hpos).trans hlast.2.le
  · rw [coveredEnd, List.getLast?_eq_some_getLast h, Option.getD_some]

/-- A committed publication: node, provenance and frontier together, every owned row up to the new frontier
covered or excluded, and nothing covered that another leaf of the session claims. -/
structure Leaf (p : Publication) (now : Int) (db db' : Db) : Prop where
  node : db'.nodes = db.nodes ++ [p.node (db.lastNodeId + 1)]
  provenance : ∀ level ∈ p.escalationLevel, ⟨db.lastNodeId + 1, level, p.model⟩ ∈ db'.provenance
  frontier : ∃ row row' largest, db.lifecycle.get p.conversationId = some row ∧
    db'.lifecycle.get p.conversationId = some row' ∧ row.currentSessionId = some p.sessionId ∧
    row.currentFrontierStoreId = p.expectedFrontier ∧ IsGreatest {id | id ∈ p.covered} largest ∧
    row' = { row with currentFrontierStoreId := max p.expectedFrontier largest, updatedAt := now } ∧
    ∀ id m, db.messages.get id = some m → p.Owns id m → p.expectedFrontier < id → id ≤ row'.currentFrontierStoreId →
      (id ∈ p.covered ∨ id ∈ p.excluded) ∧ ¬ (id ∈ p.covered ∧ id ∈ p.excluded)
  unclaimed : ∀ node ∈ db.nodes, node.sessionId = p.sessionId → node.sourceType = .messages →
    ∀ id ∈ node.sourceIds, 0 < id → id ∉ p.covered

theorem Committed.covers {legacy : List (Option String)} {db : Db}
    (h : Committed p legacy now db db') (hcomplete : Complete legacy db) {id : Int} {m : Message}
    (hm : db.messages.get id = some m) (howns : p.Owns id m) (hlow : p.expectedFrontier < id)
    (hhigh : id ≤ p.coveredEnd) :
    (id ∈ p.covered ∨ id ∈ p.excluded) ∧ ¬ (id ∈ p.covered ∧ id ∈ p.excluded) := by
  have hdisjoint := (checkSources_ok h.sources).2
  constructor
  · have hin := mem_authoritativeIds hcomplete hm howns hlow hhigh
    rw [h.contiguous, List.mem_mergeSort, List.mem_append] at hin
    cases hin with
    | inl hcovered => exact .inl (Publication.mem_coveredIds.mp hcovered).1
    | inr hexcluded => exact .inr (Publication.mem_excludedIds.mp hexcluded).1
  · intro hboth
    exact hdisjoint id (Publication.mem_coveredIds.mpr ⟨hboth.1, hlow⟩)
      (Publication.mem_excludedIds.mpr ⟨hboth.2, hlow, hhigh⟩)

theorem Committed.unclaimed_covered {legacy : List (Option String)} {db : Db}
    (h : Committed p legacy now db db') (hids : ∀ node ∈ db.nodes, node.nodeId ≤ db.lastNodeId) {node : SummaryNode}
    (hnode : node ∈ db.nodes) (hsession : node.sessionId = p.sessionId) (htype : node.sourceType = .messages)
    {id : Int} (hid : id ∈ node.sourceIds) (hpos : 0 < id) : id ∉ p.covered := by
  intro hcovered
  have hfalse := h.unclaimed
  simp only [claimedBy, decide_eq_false_iff_not] at hfalse
  apply hfalse
  have hle := hids node hnode
  refine ⟨node, List.mem_append_left _ hnode, hsession, htype, by omega, id, hid, ?_⟩
  simpa [Publication.allCoveredIds] using ⟨hcovered, hpos⟩

theorem Committed.leaf {legacy : List (Option String)} {db : Db}
    (h : Committed p legacy now db db') (hcomplete : Complete legacy db)
    (hids : ∀ node ∈ db.nodes, node.nodeId ≤ db.lastNodeId) : Leaf p now db db' := by
  obtain ⟨row, hrow, hbound, hexpected⟩ := h.row
  obtain ⟨largest, hgreatest, hend⟩ := Publication.coveredEnd_eq (checkSources_ok h.sources).1
  have hdb := h.result
  constructor
  · rw [hdb]
    rfl
  · intro level hlevel
    rw [hdb]
    simp [Publication.staged, Publication.record, Option.mem_def.mp hlevel]
  · refine ⟨row, advancedRow p.coveredEnd now row, largest, hrow, ?_, by simpa [boundTo] using hbound, hexpected,
      hgreatest, ?_, ?_⟩
    · rw [hdb, KeyedTable.get_updateWhere, if_pos rfl, hrow]
      simp [hbound]
    · rw [advancedRow, hexpected, hend, max_eq_right (le_max_left _ _)]
    · intro id m hm howns hlow hhigh
      apply h.covers hcomplete hm howns hlow
      have hmax : p.expectedFrontier ≤ p.coveredEnd := le_max_left _ _
      simpa [advancedRow, hexpected, max_eq_right hmax] using hhigh
  · intro node hnode hsession htype id hid hpos
    exact h.unclaimed_covered hids hnode hsession htype hid hpos

/-! ## Whole runs -/

/-- The database as the AUTOINCREMENT keys and the probes leave it. -/
structure System.Valid (s : System) : Prop where
  nodeIds : ∀ node ∈ s.db.nodes, node.nodeId ≤ s.db.lastNodeId
  sequence : 0 ≤ s.db.lastStoreId
  storeIds : ∀ id m, s.db.messages.get id = some m → 0 < id ∧ id ≤ s.db.lastStoreId
  caches : ∀ i legacy, (s.processes i).legacy = some legacy → Complete legacy s.db

/-- A step that neither publishes nor appends leaves messages and nodes alone. -/
theorem step_db (call : Call) (now : Int) (legacy : List (Option String)) (db : Db) :
    (∃ p, call = .publish p ∧ Committed p legacy now db (call.step now legacy db).2) ∨
      (∃ m, call = .append m ∧ (call.step now legacy db).2 = appendMessage m db) ∨
        ∃ rows, (call.step now legacy db).2 = { db with lifecycle := rows } := by
  cases call with
  | bindRead session attempts conversation =>
    simp only [Call.step]
    split <;> exact .inr (.inr ⟨_, rfl⟩)
  | bindWrite session attempts existing conversation =>
    simp only [Call.step]
    split
    · exact .inr (.inr ⟨_, rfl⟩)
    · split <;> exact .inr (.inr ⟨_, rfl⟩)
  | bindTransaction session conversation =>
    simp only [Call.step]
    split <;> exact .inr (.inr ⟨_, rfl⟩)
  | rebind session conversation => exact .inr (.inr ⟨_, rfl⟩)
  | finalize conversation session frontier =>
    simp only [Call.step]
    split <;> exact .inr (.inr ⟨_, rfl⟩)
  | rolloverRead conversation old new frontier =>
    simp only [Call.step]
    split <;> exact .inr (.inr ⟨_, rfl⟩)
  | rolloverWrite conversation old new finalized => exact .inr (.inr ⟨_, rfl⟩)
  | advanceRead conversation session frontier =>
    simp only [Call.step]
    split
    · exact .inr (.inr ⟨_, rfl⟩)
    · split <;> exact .inr (.inr ⟨_, rfl⟩)
  | advanceWrite conversation session frontier => exact .inr (.inr ⟨_, rfl⟩)
  | noteRead conversation change =>
    simp only [Call.step]
    split <;> exact .inr (.inr ⟨_, rfl⟩)
  | noteWrite conversation change => exact .inr (.inr ⟨_, rfl⟩)
  | prune kept maxAge => exact .inr (.inr ⟨_, rfl⟩)
  | append m => exact .inr (.inl ⟨m, rfl, rfl⟩)
  | publish p =>
    obtain ⟨e, he⟩ | ⟨db', hdb', hcommitted⟩ := publish_cases p legacy now db
    · simp only [Call.step, he]
      exact .inr (.inr ⟨_, rfl⟩)
    · simp only [Call.step, hdb']
      exact .inl ⟨p, rfl, hcommitted⟩
  | fetch conversation required =>
    simp only [Call.step]
    split <;> exact .inr (.inr ⟨_, rfl⟩)
  | returned state => exact .inr (.inr ⟨_, rfl⟩)
  | raised => exact .inr (.inr ⟨_, rfl⟩)

theorem get_appendMessage {m : Message} {db : Db} {id : Int} {m' : Message}
    (h : (appendMessage m db).messages.get id = some m') :
    db.messages.get id = some m' ∨ (id = db.lastStoreId + 1 ∧
      m' = { m with conversationId := some (normalizeConversationId m.conversationId) }) := by
  simp only [appendMessage, KeyedTable.get_insert] at h
  split at h
  · next hnew =>
    cases h
    exact .inr ⟨hnew.1, rfl⟩
  · exact .inl h

/-- Appended rows are in normal form, so a complete list stays complete. -/
theorem Complete.append {legacy : List (Option String)} {db : Db} (h : Complete legacy db) (m : Message) :
    Complete legacy (appendMessage m db) := by
  intro id m' hm' hlegacy
  cases get_appendMessage hm' with
  | inl hold => exact h id m' hold hlegacy
  | inr hnew =>
    obtain ⟨-, rfl⟩ := hnew
    exact absurd (strip_strip _).symm (hlegacy _ rfl)

theorem Process.complete_legacyIds {s : System} (h : s.Valid) (i : Nat) :
    Complete ((s.processes i).legacyIds s.db) s.db := by
  unfold Process.legacyIds
  cases hcache : (s.processes i).legacy with
  | none => exact complete_probe s.db
  | some legacy => exact h.caches i legacy hcache

theorem complete_congr {legacy : List (Option String)} {db : Db} (hmessages : db'.messages = db.messages)
    (h : Complete legacy db) : Complete legacy db' := by
  intro id m hm
  rw [hmessages] at hm
  exact h id m hm

/-- An event keeps the leaves valid. -/
theorem System.Valid.next {s : System} (h : s.Valid) (e : Event) : (s.next e).Valid := by
  cases e with
  | start i request =>
    simp only [System.next]
    split
    · constructor
      · exact h.nodeIds
      · exact h.sequence
      · exact h.storeIds
      · intro j legacy hcache
        by_cases hij : j = i
        · subst hij
          simp only [Function.update_self] at hcache
          exact h.caches j legacy hcache
        · simp only [Function.update_of_ne hij] at hcache
          exact h.caches j legacy hcache
    · exact h
  | step i now =>
    -- What the caches hold is complete before the step, the probe of process `i` included.
    have hcaches : ∀ j legacy, ((s.next (.step i now)).processes j).legacy = some legacy → Complete legacy s.db := by
      intro j legacy hcache
      simp only [System.next] at hcache
      by_cases hij : j = i
      · subst hij
        rw [Function.update_self] at hcache
        unfold Process.probe at hcache
        split at hcache
        · cases hcache
          exact Process.complete_legacyIds h j
        · exact h.caches j legacy hcache
      · rw [Function.update_of_ne hij] at hcache
        exact h.caches j legacy hcache
    have hdb : (s.next (.step i now)).db =
        ((s.processes i).call.step now ((s.processes i).legacyIds s.db) s.db).2 := rfl
    obtain ⟨p, -, hcommitted⟩ | ⟨m, -, happend⟩ | ⟨rows, hrows⟩ :=
      step_db (s.processes i).call now ((s.processes i).legacyIds s.db) s.db
    · rw [← hdb] at hcommitted
      have hresult := hcommitted.result
      constructor
      · intro node hnode
        rw [hresult] at hnode ⊢
        cases List.mem_append.mp hnode with
        | inl hold => exact (h.nodeIds node hold).trans (show s.db.lastNodeId ≤ s.db.lastNodeId + 1 by omega)
        | inr hnew =>
          rw [List.mem_singleton.mp hnew]
          exact le_rfl
      · rw [hresult]
        exact h.sequence
      · rw [hresult]
        exact h.storeIds
      · intro j legacy hcache
        exact complete_congr (by rw [hresult]; rfl) (hcaches j legacy hcache)
    · rw [← hdb] at happend
      constructor
      · rw [happend]
        exact h.nodeIds
      · rw [happend]
        exact h.sequence.trans (show s.db.lastStoreId ≤ s.db.lastStoreId + 1 by omega)
      · intro id m' hm'
        rw [happend] at hm' ⊢
        have hsequence := h.sequence
        cases get_appendMessage hm' with
        | inl hold =>
          obtain ⟨hpos, hle⟩ := h.storeIds id m' hold
          exact ⟨hpos, hle.trans (show s.db.lastStoreId ≤ s.db.lastStoreId + 1 by omega)⟩
        | inr hnew =>
          simp only [appendMessage, hnew.1]
          omega
      · intro j legacy hcache
        rw [happend]
        exact (hcaches j legacy hcache).append m
    · rw [← hdb] at hrows
      constructor
      · rw [hrows]
        exact h.nodeIds
      · rw [hrows]
        exact h.sequence
      · rw [hrows]
        exact h.storeIds
      · intro j legacy hcache
        exact complete_congr (by rw [hrows]) (hcaches j legacy hcache)

theorem System.Valid.run {events : List Event} : ∀ {s : System}, s.Valid → (s.run events).Valid := by
  induction events with
  | nil => exact fun h => h
  | cons e events ih => exact fun h => ih (h.next e)

/-! ## No source row twice -/

/-- Two message-sourced nodes of one session claim different rows. -/
def SourcesApart (n₁ n₂ : SummaryNode) : Prop :=
  n₁.sessionId = n₂.sessionId → n₁.sourceType = .messages → ∀ id ∈ n₁.sourceIds, 0 < id → id ∉ n₂.sourceIds

theorem step_leaf {s : System} (h : s.Valid) {i : Nat} (hcall : (s.processes i).call = .publish p)
    (now : Int) : (s.next (.step i now)).db = s.db ∨ Leaf p now s.db (s.next (.step i now)).db := by
  have hdb : (s.next (.step i now)).db = ((s.processes i).call.step now ((s.processes i).legacyIds s.db) s.db).2 := rfl
  obtain ⟨e, he⟩ | ⟨db', hdb', hcommitted⟩ := publish_cases p ((s.processes i).legacyIds s.db) now s.db
  · left
    rw [hdb, hcall]
    simp only [Call.step, he]
  · right
    rw [hdb, hcall]
    simp only [Call.step, hdb']
    exact hcommitted.leaf (Process.complete_legacyIds h i) h.nodeIds

/-- One event adds at most one leaf, apart from every node before it. -/
theorem next_nodes {s : System} (h : s.Valid) (e : Event) :
    ∃ new, (s.next e).db.nodes = s.db.nodes ++ new ∧ (∀ n ∈ new, n.sourceType = .messages) ∧ new.length ≤ 1 ∧
      ∀ n₁ ∈ s.db.nodes, ∀ n₂ ∈ new, SourcesApart n₁ n₂ := by
  -- Every event but a committing publication leaves the nodes alone.
  have hsame : (s.next e).db.nodes = s.db.nodes → ∃ new, (s.next e).db.nodes = s.db.nodes ++ new ∧
      (∀ n ∈ new, n.sourceType = .messages) ∧ new.length ≤ 1 ∧ ∀ n₁ ∈ s.db.nodes, ∀ n₂ ∈ new, SourcesApart n₁ n₂ := by
    intro heq
    exact ⟨[], by simp [heq], by simp, by simp, by simp⟩
  cases e with
  | start i request =>
    apply hsame
    simp only [System.next]
    split <;> rfl
  | step i now =>
    have hdb : (s.next (.step i now)).db =
        ((s.processes i).call.step now ((s.processes i).legacyIds s.db) s.db).2 := rfl
    obtain ⟨p, hcall, -⟩ | ⟨m, -, happend⟩ | ⟨rows, hrows⟩ :=
      step_db (s.processes i).call now ((s.processes i).legacyIds s.db) s.db
    · cases step_leaf h hcall now with
      | inl hnothing => exact hsame (by rw [hnothing])
      | inr hleaf =>
        refine ⟨[p.node (s.db.lastNodeId + 1)], hleaf.node, by simp [Publication.node], by simp, ?_⟩
        intro n₁ hn₁ n₂ hn₂ hsession htype id hid hpos
        rw [List.mem_singleton] at hn₂
        subst hn₂
        exact hleaf.unclaimed n₁ hn₁ hsession htype id hid hpos
    · exact hsame (by rw [hdb, happend]; rfl)
    · exact hsame (by rw [hdb, hrows])

theorem run_nodes {events : List Event} : ∀ {s : System}, s.Valid →
    ∃ new, (s.run events).db.nodes = s.db.nodes ++ new ∧ (∀ n ∈ new, n.sourceType = .messages) ∧
      (∀ n₁ ∈ s.db.nodes, ∀ n₂ ∈ new, SourcesApart n₁ n₂) ∧ new.Pairwise SourcesApart := by
  induction events with
  | nil => exact fun _ => ⟨[], by simp⟩
  | cons e events ih =>
    intro s h
    obtain ⟨first, hfirst, hfirstType, hone, hfirstApart⟩ := next_nodes h e
    obtain ⟨rest, hrest, hrestType, hrestApart, hpairwise⟩ := ih (h.next e)
    rw [hfirst] at hrest hrestApart
    refine ⟨first ++ rest, ?_, ?_, ?_, ?_⟩
    · rw [System.run_cons, hrest, List.append_assoc]
    · exact fun n hn => (List.mem_append.mp hn).elim (hfirstType n) (hrestType n)
    · intro n₁ hn₁ n₂ hn₂
      cases List.mem_append.mp hn₂ with
      | inl hin => exact hfirstApart n₁ hn₁ n₂ hin
      | inr hin => exact hrestApart n₁ (List.mem_append_left _ hn₁) n₂ hin
    · rw [List.pairwise_append]
      refine ⟨?_, hpairwise, fun n₁ hn₁ => hrestApart n₁ (List.mem_append_right _ hn₁)⟩
      cases first with
      | nil => exact .nil
      | cons n first =>
        rw [List.length_cons, Nat.succ_le_succ_iff, Nat.le_zero, List.length_eq_zero_iff] at hone
        rw [hone]
        exact List.pairwise_singleton _ _

/-- Every publication of a run commits a whole leaf or changes nothing, and no two leaves of one session share a
source row. -/
theorem publications_contiguous {s : System} {events : List Event} (hvalid : s.Valid) :
    (∀ a i now b p, events = a ++ .step i now :: b → ((s.run a).processes i).call = .publish p →
      (s.run (a ++ [.step i now])).db = (s.run a).db ∨ Leaf p now (s.run a).db (s.run (a ++ [.step i now])).db) ∧
      ∃ new, (s.run events).db.nodes = s.db.nodes ++ new ∧ new.Pairwise fun n₁ n₂ =>
        n₁.sessionId = n₂.sessionId → ∀ id ∈ n₁.sourceIds, id ∈ n₂.sourceIds →
        (s.run events).db.messages.get id = none := by
  constructor
  · intro a i now b p _ hcall
    rw [System.run_append]
    exact step_leaf hvalid.run hcall now
  · obtain ⟨new, hnew, htype, -, hpairwise⟩ := run_nodes hvalid
    refine ⟨new, hnew, hpairwise.imp_of_mem ?_⟩
    intro n₁ n₂ hn₁ _ hapart hsession id hid hid'
    cases hrow : (s.run events).db.messages.get id with
    | none => rfl
    | some m =>
      have hpos := (hvalid.run.storeIds id m hrow).1
      exact absurd hid' (hapart hsession (htype n₁ hn₁) id hid hpos)

/-- One conversation bound to `s`, no message yet, and idle processes. -/
def bound : System where
  db := ⟨⟨[("c", firstRow "s" 1)], List.nodup_singleton _⟩, .empty, 0, [], 0, []⟩
  processes := fun _ => ⟨.returned none, none⟩

def firstLeaf : Publication := ⟨"c", "s", "summary", some 1, "model", 0, [1], [], [], [], []⟩

/-- Two processes publish the leaf of the one stored message. -/
def publishTwice : List Event :=
  [.start 0 (.appendMessage ⟨⟨some "text", "user", none, none, none⟩, "s", some "c"⟩), .step 0 10,
    .start 1 (.publish firstLeaf), .start 2 (.publish firstLeaf), .step 1 11, .step 2 12]

theorem publications_contiguous_publishTwice :
    (bound.run publishTwice).db.nodes = [firstLeaf.node 1] ∧
      Leaf firstLeaf 11 (bound.run (publishTwice.take 4)).db (bound.run (publishTwice.take 5)).db := by
  have hvalid : bound.Valid := by
    constructor
    · intro node hnode
      cases hnode
    · exact le_rfl
    · intro id m hm
      cases hm
    · intro i legacy hcache
      cases hcache
  constructor
  · decide +kernel
  · obtain hnothing | hleaf :=
      (publications_contiguous hvalid).1 (publishTwice.take 4) 1 11 [.step 2 12] firstLeaf rfl rfl
    · exact absurd (congrArg (fun db => db.nodes.length) hnothing) (by decide +kernel)
    · exact hleaf

end Lifecycle
