import LcmX.Lib.KeyedTable
import Mathlib

/-!
# Prepared leaves

`leaf_prep.py` keeps, for each conversation, the summaries that its worker has prepared
ahead of a compaction, and the jobs that wait for the worker. Everything here runs under one
lock.
-/
namespace LeafPrep

structure PreparedLeaf where
  sessionId : String
  conversationId : String
  startFrontier : Int
  coveredStoreIds : List Int
  coverageDigest : String
  routeFingerprint : String
  summary : String
  level : Nat
  model : String
  sourceTokens : Int
  summaryTokens : Int
  /-- Stored system prompts between the start frontier and the first covered row. -/
  excludedStoreIds : List Int
  deriving DecidableEq, Repr

/-- `max(start_frontier, max(covered_store_ids))`; a leaf covers a row. -/
def PreparedLeaf.coveredEnd (leaf : PreparedLeaf) : Int := leaf.coveredStoreIds.foldl max leaf.startFrontier

/-- A store and a conversation. -/
abbrev Key := String × String

structure Job (σ : Type) where
  dbPath : String
  sessionId : String
  conversationId : String
  frontier : Int
  generation : Nat
  fingerprint : String
  /-- The copy of the configuration, the limits and the marked replies. -/
  settings : σ

def Job.key {σ : Type} (job : Job σ) : Key := (job.dbPath, job.conversationId)

def perConversation : Nat := 16
def perProcess : Nat := 64

/-! ## The cache -/

/-- The leaves of each conversation; one without leaves is not kept. -/
structure Cache where
  table : KeyedTable Key (List PreparedLeaf)
  filled : ∀ p ∈ table.rows, p.2 ≠ []

namespace Cache

def empty : Cache := ⟨KeyedTable.empty, by simp [KeyedTable.empty]⟩

def leaves (cache : Cache) (key : Key) : List PreparedLeaf := (cache.table.get key).getD []

def delete (cache : Cache) (gone : Key → Bool) : Cache where
  table := cache.table.delete gone
  filled p hp := cache.filled p (List.mem_of_mem_filter hp)

def moveToEnd (cache : Cache) (key : Key) : Cache where
  table := cache.table.moveToEnd key
  filled p hp := cache.filled p ((List.mem_append.mp hp).elim List.mem_of_mem_filter List.mem_of_mem_filter)

theorem filled_assign (cache : Cache) (key : Key) {leaves : List PreparedLeaf} (h : leaves ≠ []) :
    ∀ p ∈ (cache.table.assign key leaves).rows, p.2 ≠ [] := by
  rintro ⟨k, ls⟩ hp
  have hget := KeyedTable.get_eq_some.mpr hp
  rw [KeyedTable.get_assign] at hget
  split at hget
  · exact Option.some.inj hget ▸ h
  · exact cache.filled (k, ls) (KeyedTable.get_eq_some.mp hget)

def assign (cache : Cache) (key : Key) (leaves : List PreparedLeaf) (h : leaves ≠ []) : Cache :=
  ⟨cache.table.assign key leaves, cache.filled_assign key h⟩

def total (rows : List (Key × List PreparedLeaf)) : Nat := (rows.map fun p => p.2.length).sum

/-- How many conversations go, the oldest first, until there is room or `key` is the oldest. -/
def evicted (key : Key) : List (Key × List PreparedLeaf) → Nat
  | [] => 0
  | p :: rest => if perProcess < total (p :: rest) ∧ p.1 ≠ key then evicted key rest + 1 else 0

def dropOldest (cache : Cache) (n : Nat) : Cache where
  table := ⟨cache.table.rows.drop n, cache.table.unique.sublist ((List.drop_sublist n _).map Prod.fst)⟩
  filled p hp := cache.filled p (List.mem_of_mem_drop hp)

theorem leaves_delete (cache : Cache) (gone : Key → Bool) (key : Key) :
    (cache.delete gone).leaves key = if gone key then [] else cache.leaves key := by
  rw [leaves, delete, KeyedTable.get_delete]
  split
  · rfl
  · rfl

@[simp] theorem leaves_moveToEnd (cache : Cache) (key key' : Key) :
    (cache.moveToEnd key).leaves key' = cache.leaves key' := by
  rw [leaves, moveToEnd, KeyedTable.get_moveToEnd, leaves]

theorem leaves_assign (cache : Cache) (key key' : Key) {leaves : List PreparedLeaf} (h : leaves ≠ []) :
    (cache.assign key leaves h).leaves key' = if key' = key then leaves else cache.leaves key' := by
  rw [Cache.leaves, assign, KeyedTable.get_assign]
  split
  · rfl
  · rfl

theorem leaves_dropOldest (cache : Cache) (n : Nat) (key : Key) :
    (cache.dropOldest n).leaves key = cache.leaves key ∨ (cache.dropOldest n).leaves key = [] := by
  cases hget : (cache.dropOldest n).table.get key with
  | none => exact .inr (by rw [leaves, hget, Option.getD_none])
  | some ls =>
    have hold := KeyedTable.get_eq_some.mpr (List.mem_of_mem_drop (KeyedTable.get_eq_some.mp hget))
    exact .inl (by rw [leaves, leaves, hget, hold])

end Cache

/-! ## The operations -/

/-- `_LeafPrep`, without its thread. -/
structure Prep (σ : Type) where
  jobs : KeyedTable Key (Job σ)
  cache : Cache
  generations : String → Nat
  counters : String → Nat

def Prep.empty {σ : Type} : Prep σ := ⟨KeyedTable.empty, Cache.empty, fun _ => 0, fun _ => 0⟩

def bump (counters : String → Nat) (name : String) (n : Nat) : String → Nat :=
  fun other => if other = name then counters other + n else counters other

namespace Prep

variable {σ : Type} (prep : Prep σ)

def enqueue (job : Job σ) : Bool × Prep σ :=
  if job.generation ≠ prep.generations job.dbPath then (false, prep)
  else
    let counters := if (prep.jobs.get job.key).isSome then bump prep.counters "jobs_superseded" 1 else prep.counters
    let jobs := (prep.jobs.delete fun key => key = job.key).assign job.key job
    (true, { prep with jobs, counters := bump counters "jobs_enqueued" 1 })

/-- Shutdown or storage rebind. -/
def discard (dbPath : String) : Prep σ where
  jobs := prep.jobs.delete fun key => key.1 = dbPath
  cache := prep.cache.delete fun key => key.1 = dbPath
  generations path := if path = dbPath then prep.generations path + 1 else prep.generations path
  counters := bump prep.counters "wasted" (Cache.total (prep.cache.table.rows.filter fun p => p.1.1 = dbPath))

def removeLocked (key : Key) (leaves : List PreparedLeaf) (reason : Option String) : Prep σ :=
  let cached := prep.cache.leaves key
  if cached = [] then prep
  else
    let counters := match reason with
      | some reason => bump prep.counters ("rejected_" ++ reason) (cached.filter fun leaf => leaf ∈ leaves).length
      | none => prep.counters
    let remaining := cached.filter fun leaf => leaf ∉ leaves
    if h : remaining ≠ [] then { prep with cache := prep.cache.assign key remaining h, counters }
    else { prep with cache := prep.cache.delete fun other => other = key, counters }

/-- `by_start`: of two leaves with one start the later one counts. -/
def byStart (leaves : List PreparedLeaf) (cursor : Int) : Option PreparedLeaf :=
  (leaves.filter fun leaf => leaf.startFrontier = cursor).getLast?

/-- The loop of `ready_chain`, in at most `fuel` rounds. -/
def walk (leaves : List PreparedLeaf) : Nat → Int → Option (List PreparedLeaf)
  | 0, _ => none
  | fuel + 1, cursor =>
    match byStart leaves cursor with
    | none => some []
    | some leaf => (walk leaves fuel leaf.coveredEnd).map fun chain => leaf :: chain

/-- The chain that starts at the frontier; leaves that it does not reach are dropped. -/
def readyChain (fuel : Nat) (key : Key) (frontier : Int) : Option (List PreparedLeaf × Prep σ) :=
  let leaves := prep.cache.leaves key
  if leaves = [] then some ([], prep)
  else
    let moved := { prep with cache := prep.cache.moveToEnd key }
    (walk leaves fuel frontier).map fun chain =>
      let stale := leaves.filter fun leaf => leaf ∉ chain
      (chain, if stale = [] then moved else moved.removeLocked key stale (some "frontier_moved"))

def reject (key : Key) (leaves : List PreparedLeaf) (reason : String) : Prep σ :=
  prep.removeLocked key leaves (some reason)

def promoted (key : Key) (leaf : PreparedLeaf) : Prep σ :=
  let removed := prep.removeLocked key [leaf] none
  { removed with counters := bump removed.counters "promoted" 1 }

/-- Drop the oldest conversations while there are too many leaves. -/
def evict (key : Key) : Prep σ :=
  let rows := prep.cache.table.rows
  let n := Cache.evicted key rows
  { prep with
    cache := prep.cache.dropOldest n
    counters := bump prep.counters "rejected_stale_evicted" (Cache.total (rows.take n)) }

def cacheLeaf (job : Job σ) (leaf : PreparedLeaf) : Bool × Prep σ :=
  if prep.generations job.dbPath ≠ job.generation then (false, prep)
  else
    let leaves := prep.cache.leaves job.key ++ [leaf]
    let cache := (prep.cache.assign job.key leaves
      (List.append_ne_nil_of_right_ne_nil _ (List.cons_ne_nil _ _))).moveToEnd job.key
    (true, { prep with cache, counters := bump prep.counters "prepared" 1 }.evict job.key)

/-! ## What the operations keep -/

variable {prep} {key k : Key} {leaf l : PreparedLeaf} {leaves : List PreparedLeaf}

@[simp] theorem generations_enqueue (job : Job σ) : (prep.enqueue job).2.generations = prep.generations := by
  rw [enqueue]
  split
  · rfl
  · rfl

@[simp] theorem leaves_enqueue (job : Job σ) : (prep.enqueue job).2.cache = prep.cache := by
  rw [enqueue]
  split
  · rfl
  · rfl

theorem mem_discard (dbPath : String) : l ∈ (prep.discard dbPath).cache.leaves k ↔
    l ∈ prep.cache.leaves k ∧ k.1 ≠ dbPath := by
  rw [discard, Cache.leaves_delete]
  by_cases h : k.1 = dbPath
  · simp [h]
  · simp [h]

@[simp] theorem generations_removeLocked (reason : Option String) :
    (prep.removeLocked key leaves reason).generations = prep.generations := by
  unfold removeLocked
  dsimp only
  split
  · rfl
  · split
    · rfl
    · rfl

theorem mem_removeLocked (reason : Option String) : l ∈ (prep.removeLocked key leaves reason).cache.leaves k ↔
    l ∈ prep.cache.leaves k ∧ (k = key → l ∉ leaves) := by
  unfold removeLocked
  dsimp only
  split
  · rename_i hnone
    constructor
    · exact fun h => ⟨h, fun hk => by rw [hk, hnone] at h; cases h⟩
    · exact fun h => h.1
  · split
    · dsimp only
      rw [Cache.leaves_assign]
      by_cases hk : k = key
      · subst hk
        simp
      · simp [hk]
    · rename_i hempty
      dsimp only
      rw [Cache.leaves_delete]
      by_cases hk : k = key
      · subst hk
        simp only [ne_eq, not_not, List.filter_eq_nil_iff, decide_eq_true_eq] at hempty
        simp only [decide_true, if_true, List.not_mem_nil, true_implies, false_iff, not_and, not_not]
        exact hempty l
      · simp [hk]

@[simp] theorem generations_promoted : (prep.promoted key leaf).generations = prep.generations :=
  generations_removeLocked none

theorem mem_promoted : l ∈ (prep.promoted key leaf).cache.leaves k ↔
    l ∈ prep.cache.leaves k ∧ (k = key → l ∉ [leaf]) := mem_removeLocked none

theorem generations_readyChain {fuel : Nat} {frontier : Int} {chain : List PreparedLeaf} {prep' : Prep σ}
    (h : prep.readyChain fuel key frontier = some (chain, prep')) : prep'.generations = prep.generations := by
  unfold readyChain at h
  dsimp only at h
  split at h
  · cases h
    rfl
  · obtain ⟨chain', -, he⟩ := Option.map_eq_some_iff.mp h
    cases he
    split
    · rfl
    · rw [generations_removeLocked]

theorem mem_readyChain {fuel : Nat} {frontier : Int} {chain : List PreparedLeaf} {prep' : Prep σ}
    (h : prep.readyChain fuel key frontier = some (chain, prep')) :
    l ∈ prep'.cache.leaves k ↔ l ∈ prep.cache.leaves k ∧ (k = key → l ∈ chain) := by
  unfold readyChain at h
  dsimp only at h
  split at h
  · rename_i hnone
    cases h
    constructor
    · exact fun h => ⟨h, fun hk => by rw [hk, hnone] at h; cases h⟩
    · exact fun h => h.1
  · obtain ⟨chain', -, he⟩ := Option.map_eq_some_iff.mp h
    cases he
    split
    · rename_i hstale
      simp only [List.filter_eq_nil_iff, decide_eq_true_eq, not_not] at hstale
      rw [Cache.leaves_moveToEnd]
      exact ⟨fun h => ⟨h, fun hk => hstale l (hk ▸ h)⟩, fun h => h.1⟩
    · rw [mem_removeLocked, Cache.leaves_moveToEnd]
      constructor
      · rintro ⟨hl, hnot⟩
        refine ⟨hl, fun hk => ?_⟩
        have hnot := hnot hk
        rw [hk] at hl
        simpa [hl] using hnot
      · rintro ⟨hl, hin⟩
        refine ⟨hl, fun hk => ?_⟩
        simp [hin hk]

/-- A leaf is cached only while the generation of its job lasts. -/
theorem cacheLeaf_spec {job : Job σ} {prep' : Prep σ} (h : prep.cacheLeaf job leaf = (true, prep')) :
    prep.generations job.dbPath = job.generation ∧ prep'.generations = prep.generations ∧
      ∀ k l, l ∈ prep'.cache.leaves k → l ∈ prep.cache.leaves k ∨ (k = job.key ∧ l = leaf) := by
  unfold cacheLeaf at h
  split at h
  · cases h
  · rename_i hgeneration
    obtain rfl := (Prod.mk.inj h).2
    refine ⟨not_not.mp hgeneration, rfl, fun k l hl => ?_⟩
    rw [evict] at hl
    rcases Cache.leaves_dropOldest _ _ k with hkept | hgone
    · rw [hkept, Cache.leaves_moveToEnd, Cache.leaves_assign] at hl
      split at hl
      · rename_i hk
        rw [List.mem_append, List.mem_singleton] at hl
        exact hl.imp (fun hl => hk ▸ hl) fun hl => ⟨hk, hl⟩
      · exact .inl hl
    · rw [hgone] at hl
      cases hl

end Prep

end LeafPrep
