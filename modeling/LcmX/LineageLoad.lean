import LcmX.RollupFrontier
import Mathlib

/-!
# Loading the source lineage

`_load_source_lineage_staged` of rollup_periods.py walks the sources of the candidate
roots in batches, over a frontier and a seen table, with a budget for nodes and one for
edges. It raises exactly when what is reachable is over a budget, and otherwise gives the
sources of every node that exists, whichever rows a batch takes.
-/
namespace RollupFrontier

open Lineage

inductive SourceType where
  | messages
  | nodes
deriving DecidableEq, Repr

/-- A row of `summary_nodes`; the ids are those that `json_each` and the cast read out of the column. -/
structure SummaryNode where
  sourceType : SourceType
  sourceIds : List Int
deriving DecidableEq, Repr

abbrev SummaryNodes := KeyedTable Int SummaryNode

/-- The edges of the join: nothing for a missing node or one made from messages. -/
def nodeSources (table : SummaryNodes) (id : Int) : List Int :=
  match table.get id with
  | some ⟨.nodes, ids⟩ => ids
  | _ => []

/-- `INSERT OR IGNORE` of one id, and one key of `dict.fromkeys`. -/
def insertIgnore (rows : List Int) (id : Int) : List Int := if id ∈ rows then rows else rows ++ [id]

structure LoadError where
  message : String
deriving DecidableEq, Repr

def boundExceeded (limit : Int) : LoadError := ⟨s!"source lineage exceeds bounded work limit ({limit})"⟩

structure Load where
  frontier : List Int
  seen : List Int
  lineage : SourceLineage
  nodeWork : Nat
  edgeWork : Nat

section

variable (pick : Nat → List Int → List Int) (table : SummaryNodes) (limit : Int)

/-- The rows that `LIMIT` leaves, in an order that the query does not name. -/
structure Picks : Prop where
  subperm : ∀ k rows, (pick k rows).Subperm rows
  length : ∀ k rows, (pick k rows).length = min k rows.length

def workLimit : Nat := limit.toNat

def batchLimit : Nat := 256

/-- `sources_by_parent`, read at one id. -/
def sourcesByParent (edgeRows : List (Int × Int)) (id : Int) : List Int :=
  (edgeRows.filter fun row => row.1 = id).map Prod.snd

/-- One turn of the loop; without a state it is the last one. -/
def loadTurn (s : Load) : Except LoadError (Option Load) :=
  let remaining := workLimit limit - s.nodeWork
  if remaining = 0 then
    if s.frontier ≠ [] then .error (boundExceeded limit) else .ok none
  else
    let currentIds := pick (min batchLimit remaining) s.frontier
    if currentIds = [] then .ok none
    else
      let edgeBudget := workLimit limit - s.edgeWork
      let edgeRows := (currentIds.flatMap fun id => (nodeSources table id).map
        fun source => (id, source)).take (edgeBudget + 1)
      if edgeBudget < edgeRows.length then .error (boundExceeded limit)
      else
        let seen := currentIds.foldl insertIgnore s.seen
        .ok (some
          { frontier := ((edgeRows.map Prod.snd).filter
            (· ∉ seen)).foldl insertIgnore (s.frontier.filter (· ∉ currentIds))
            seen := seen
            lineage := currentIds.foldl (fun lineage id =>
              if (table.get id).isSome then lineage.assign id (sourcesByParent edgeRows id) else lineage) s.lineage
            nodeWork := s.nodeWork + currentIds.length
            edgeWork := s.edgeWork + edgeRows.length })

/-- `while True`, for a number of turns. -/
def loadLoop : Nat → Load → Option (Except LoadError SourceLineage)
  | 0, _ => none
  | turns + 1, s =>
    match loadTurn pick table limit s with
    | .error error => some (.error error)
    | .ok none => some (.ok s.lineage)
    | .ok (some s) => loadLoop turns s

def loadSourceLineageStaged (turns : Nat) (rootNodeIds : List Int) : Option (Except LoadError SourceLineage) :=
  let roots := rootNodeIds.foldl insertIgnore []
  if roots = [] then some (.ok .empty)
  else if workLimit limit < roots.length then some (.error (boundExceeded limit))
  else loadLoop pick table limit turns ⟨roots, [], .empty, 0, 0⟩

end

/-! ## Tables of ids -/

theorem mem_insertIgnore {ids rows : List Int} {id : Int} : id ∈ ids.foldl insertIgnore rows ↔
    id ∈ rows ∨ id ∈ ids := by
  induction ids generalizing rows with
  | nil => simp
  | cons x ids ih =>
    rw [List.foldl_cons, ih, insertIgnore]
    split
    · rename_i hx
      constructor
      · rintro (h | h)
        · exact .inl h
        · exact .inr (List.mem_cons_of_mem _ h)
      · rintro (h | h)
        · exact .inl h
        · obtain rfl | h := List.mem_cons.mp h
          · exact .inl hx
          · exact .inr h
    · simp [or_assoc]

theorem nodup_insertIgnore {ids rows : List Int} (h : rows.Nodup) : (ids.foldl insertIgnore rows).Nodup := by
  induction ids generalizing rows with
  | nil => exact h
  | cons x ids ih =>
    rw [List.foldl_cons]
    refine ih ?_
    rw [insertIgnore]
    split
    · exact h
    · rename_i hx
      exact List.nodup_append.mpr
        ⟨h, List.nodup_singleton x, fun a ha b hb he => hx (List.mem_singleton.mp hb ▸ he ▸ ha)⟩

/-- New ids are put behind the rows as they are. -/
theorem insertIgnore_eq_append {ids rows : List Int} (hids : ids.Nodup) (hnew : ∀ id ∈ ids, id ∉ rows) :
    ids.foldl insertIgnore rows = rows ++ ids := by
  induction ids generalizing rows with
  | nil => simp
  | cons x ids ih =>
    obtain ⟨hx, hids⟩ := List.nodup_cons.mp hids
    rw [List.foldl_cons, insertIgnore, if_neg (hnew x List.mem_cons_self), ih hids]
    · simp
    · intro id hid hin
      obtain hin | hin := List.mem_append.mp hin
      · exact hnew id (List.mem_cons_of_mem _ hid) hin
      · exact hx (List.mem_singleton.mp hin ▸ hid)

/-- The edges of a batch, read at one of its ids, are that node's sources. -/
theorem sourcesByParent_flatMap {sources : Int → List Int} {ids : List Int} (hids : ids.Nodup)
    {id : Int} (h : id ∈ ids) :
    sourcesByParent (ids.flatMap fun id => (sources id).map fun source => (id, source)) id = sources id := by
  have hself : ∀ x, sourcesByParent ((sources x).map fun source => (x, source)) x = sources x := by
    intro x
    simp [sourcesByParent, List.filter_map, Function.comp_def]
  have hother : ∀ x, x ≠ id → sourcesByParent ((sources x).map fun source => (x, source)) id = [] := by
    intro x hx
    simp [sourcesByParent, List.filter_map, Function.comp_def, hx]
  induction ids with
  | nil => cases h
  | cons x ids ih =>
    obtain ⟨hx, hids⟩ := List.nodup_cons.mp hids
    have happend : sourcesByParent ((x :: ids).flatMap fun id => (sources id).map fun source => (id, source)) id =
        sourcesByParent ((sources x).map fun source => (x, source)) id ++
          sourcesByParent (ids.flatMap fun id => (sources id).map fun source => (id, source)) id := by
      simp [sourcesByParent]
    rw [happend]
    obtain rfl | hid := List.mem_cons.mp h
    · have hnone : sourcesByParent (ids.flatMap fun id => (sources id).map fun source => (id, source)) id = [] := by
        rw [sourcesByParent, List.map_eq_nil_iff, List.filter_eq_nil_iff]
        rintro ⟨parent, source⟩ hrow hparent
        obtain ⟨y, hy, hin⟩ := List.mem_flatMap.mp hrow
        obtain ⟨z, -, he⟩ := List.mem_map.mp hin
        have hsame : y = id := (congrArg Prod.fst he).trans (of_decide_eq_true hparent)
        exact hx (hsame ▸ hy)
      rw [hself, hnone, List.append_nil]
    · rw [hother x fun he => hx (he ▸ hid), List.nil_append, ih hids hid]

/-! ## One turn -/

def Reachable (table : SummaryNodes) (roots : List Int) (id : Int) : Prop :=
  ∃ root ∈ roots, Reaches (nodeSources table) root id

def edgeCount (table : SummaryNodes) (ids : List Int) : Nat := (ids.map fun id => (nodeSources table id).length).sum

/-- What holds between two turns: the ids in the two tables are reachable, and only those in the frontier are unread. -/
structure Loads (table : SummaryNodes) (limit : Int) (roots : List Int) (s : Load) : Prop where
  nodup : (s.seen ++ s.frontier).Nodup
  sound : ∀ id ∈ s.seen ++ s.frontier, Reachable table roots id
  roots : ∀ id ∈ roots, id ∈ s.seen ++ s.frontier
  closed : ∀ id ∈ s.seen, ∀ source ∈ nodeSources table id, source ∈ s.seen ++ s.frontier
  nodeWork : s.nodeWork = s.seen.length
  edgeWork : s.edgeWork = edgeCount table s.seen
  bounded : s.nodeWork ≤ workLimit limit ∧ s.edgeWork ≤ workLimit limit
  lineage : ∀ id, s.lineage.get id = if id ∈ s.seen then (table.get id).map fun _ => nodeSources table id else none

/-- Reachable ids that are over a budget. -/
def OverBudget (table : SummaryNodes) (limit : Int) (roots : List Int) : Prop :=
  ∃ ids : List Int, ids.Nodup ∧ (∀ id ∈ ids, Reachable table roots id) ∧
    (workLimit limit < ids.length ∨ workLimit limit < edgeCount table ids)

variable {pick : Nat → List Int → List Int} {table : SummaryNodes} {limit : Int} {roots : List Int} {s : Load}

theorem Reachable.source {id source : Int} (h : Reachable table roots id)
    (hsource : source ∈ nodeSources table id) : Reachable table roots source := by
  obtain ⟨root, hroot, hreach⟩ := h
  exact ⟨root, hroot, hreach.tail hsource⟩

theorem edgeCount_append (ids ids' : List Int) :
    edgeCount table (ids ++ ids') = edgeCount table ids + edgeCount table ids' := by
  rw [edgeCount, List.map_append, List.sum_append, edgeCount, edgeCount]

theorem length_edges (table : SummaryNodes) (ids : List Int) :
    (ids.flatMap fun id => (nodeSources table id).map fun source => (id, source)).length = edgeCount table ids := by
  simp [edgeCount, List.length_flatMap]

/-- The rows of the map after a batch. -/
theorem get_lineage {edgeRows : List (Int × Int)} (ids : List Int) : ∀ (lineage : SourceLineage) (id : Int),
    (ids.foldl (fun lineage id => if (table.get id).isSome then
      lineage.assign id (sourcesByParent edgeRows id) else lineage) lineage).get id =
      if id ∈ ids ∧ (table.get id).isSome then some (sourcesByParent edgeRows id) else lineage.get id := by
  induction ids with
  | nil => simp
  | cons x ids ih =>
    intro lineage id
    rw [List.foldl_cons, ih]
    by_cases hid : id ∈ ids ∧ (table.get id).isSome
    · rw [if_pos hid, if_pos ⟨List.mem_cons_of_mem _ hid.1, hid.2⟩]
    · rw [if_neg hid]
      by_cases hx : id = x
      · subst hx
        cases hsome : (table.get id).isSome with
        | true => simp
        | false => simp
      · have hrest : ¬ (id ∈ x :: ids ∧ (table.get id).isSome) :=
          fun h => hid ⟨(List.mem_cons.mp h.1).resolve_left hx, h.2⟩
        rw [if_neg hrest]
        split
        · rw [KeyedTable.get_assign, if_neg hx]
        · rfl

/-- The batch and the tables behind it. -/
theorem Loads.batch (h : Loads table limit roots s) {ids : List Int} (hids : ids.Subperm s.frontier) :
    ids.Nodup ∧ (∀ id ∈ ids, id ∉ s.seen ∧ Reachable table roots id) ∧
      ids.foldl insertIgnore s.seen = s.seen ++ ids := by
  obtain ⟨-, hfrontier, hdisjoint⟩ := List.nodup_append.mp h.nodup
  have hnodup : ids.Nodup := by
    obtain ⟨rows, hperm, hsub⟩ := hids
    exact hperm.nodup_iff.mp (hfrontier.sublist hsub)
  have hnew : ∀ id ∈ ids, id ∉ s.seen := fun id hid hseen => hdisjoint id hseen id (hids.subset hid) rfl
  exact ⟨hnodup, fun id hid => ⟨hnew id hid, h.sound id (List.mem_append_right _ (hids.subset hid))⟩,
    insertIgnore_eq_append hnodup hnew⟩

/-- Reading a batch keeps what holds between two turns. -/
theorem Loads.read (h : Loads table limit roots s) {ids : List Int} (hids : ids.Nodup)
    (hnew : ∀ id ∈ ids, id ∉ s.seen ∧ Reachable table roots id)
    (hnodes : s.nodeWork + ids.length ≤ workLimit limit)
    (hedges : s.edgeWork + edgeCount table ids ≤ workLimit limit) :
    let edgeRows := ids.flatMap fun id => (nodeSources table id).map fun source => (id, source)
    Loads table limit roots
      { frontier := ((edgeRows.map Prod.snd).filter
        (· ∉ s.seen ++ ids)).foldl insertIgnore (s.frontier.filter (· ∉ ids))
        seen := s.seen ++ ids
        lineage := ids.foldl (fun lineage id =>
          if (table.get id).isSome then lineage.assign id (sourcesByParent edgeRows id) else lineage) s.lineage
        nodeWork := s.nodeWork + ids.length
        edgeWork := s.edgeWork + edgeCount table ids } := by
  intro edgeRows
  obtain ⟨hseen, hfrontier, hdisjoint⟩ := List.nodup_append.mp h.nodup
  have htarget : ∀ source, source ∈ edgeRows.map Prod.snd ↔ ∃ id ∈ ids, source ∈ nodeSources table id := by
    intro source
    simp [edgeRows]
  have hmem : ∀ id, id ∈ ((edgeRows.map Prod.snd).filter (· ∉ s.seen ++ ids)).foldl insertIgnore
    (s.frontier.filter (· ∉ ids)) ↔
      (id ∈ s.frontier ∧ id ∉ ids) ∨ ((∃ parent ∈ ids, id ∈ nodeSources table parent) ∧ id ∉ s.seen ++ ids) := by
    intro id
    rw [mem_insertIgnore, List.mem_filter, List.mem_filter, htarget]
    simp only [decide_eq_true_eq]
  have hold : ∀ id ∈ s.seen ++ s.frontier, id ∈ (s.seen ++ ids) ++
      ((edgeRows.map Prod.snd).filter (· ∉ s.seen ++ ids)).foldl insertIgnore (s.frontier.filter (· ∉ ids)) := by
    intro id hid
    by_cases hin : id ∈ ids
    · exact List.mem_append_left _ (List.mem_append_right _ hin)
    · obtain hid | hid := List.mem_append.mp hid
      · exact List.mem_append_left _ (List.mem_append_left _ hid)
      · exact List.mem_append_right _ ((hmem id).mpr (.inl ⟨hid, hin⟩))
  constructor
  case nodup =>
    refine List.nodup_append.mpr ⟨List.nodup_append.mpr ⟨hseen, hids, fun a ha b hb he => (hnew b hb).1 (he ▸ ha)⟩,
      nodup_insertIgnore (hfrontier.filter _), ?_⟩
    rintro a ha b hb rfl
    obtain ⟨hin, hnot⟩ | ⟨-, hnot⟩ := (hmem a).mp hb
    · obtain ha | ha := List.mem_append.mp ha
      · exact hdisjoint a ha a hin rfl
      · exact hnot ha
    · exact hnot ha
  case sound =>
    intro id hid
    obtain hid | hid := List.mem_append.mp hid
    · obtain hid | hid := List.mem_append.mp hid
      · exact h.sound id (List.mem_append_left _ hid)
      · exact (hnew id hid).2
    · obtain ⟨hin, -⟩ | ⟨⟨parent, hparent, hsource⟩, -⟩ := (hmem id).mp hid
      · exact h.sound id (List.mem_append_right _ hin)
      · exact (hnew parent hparent).2.source hsource
  case roots => exact fun id hid => hold id (h.roots id hid)
  case closed =>
    intro id hid source hsource
    obtain hid | hid := List.mem_append.mp hid
    · exact hold source (h.closed id hid source hsource)
    · by_cases hin : source ∈ s.seen ++ ids
      · exact List.mem_append_left _ hin
      · exact List.mem_append_right _ ((hmem source).mpr (.inr ⟨⟨id, hid, hsource⟩, hin⟩))
  case nodeWork =>
    show s.nodeWork + ids.length = (s.seen ++ ids).length
    rw [h.nodeWork, List.length_append]
  case edgeWork =>
    show s.edgeWork + edgeCount table ids = edgeCount table (s.seen ++ ids)
    rw [h.edgeWork, edgeCount_append]
  case bounded => exact ⟨hnodes, hedges⟩
  case lineage =>
    intro id
    show (ids.foldl _ s.lineage).get id = _
    rw [get_lineage]
    by_cases hin : id ∈ ids
    · rw [sourcesByParent_flatMap hids hin, if_pos (List.mem_append_right _ hin), h.lineage, if_neg (hnew id hin).1]
      cases table.get id <;> simp [hin]
    · rw [if_neg fun hand => hin hand.1, h.lineage]
      simp [hin]

/-- A turn ends the walk with nothing unread, raises over a budget, or reads at least one more id. -/
theorem loadTurn_spec (hpick : Picks pick) (h : Loads table limit roots s) :
    (loadTurn pick table limit s = .ok none ∧ s.frontier = []) ∨
    (loadTurn pick table limit s = .error (boundExceeded limit) ∧ OverBudget table limit roots) ∨
    ∃ next, loadTurn pick table limit s = .ok (some next) ∧ Loads table limit roots next ∧
      s.nodeWork < next.nodeWork := by
  obtain ⟨hnodeBound, hedgeBound⟩ := h.bounded
  by_cases hremaining : workLimit limit - s.nodeWork = 0
  · by_cases hfrontier : s.frontier = []
    · exact .inl ⟨by simp [loadTurn, hremaining, hfrontier], hfrontier⟩
    · refine .inr (.inl ⟨by simp [loadTurn, hremaining, hfrontier], s.seen ++ s.frontier, h.nodup, h.sound, .inl ?_⟩)
      have hpos := List.length_pos_iff.mpr hfrontier
      have hwork := h.nodeWork
      rw [List.length_append]
      omega
  · have hlength := hpick.length (min batchLimit (workLimit limit - s.nodeWork)) s.frontier
    obtain ⟨hids, hnew, hseen⟩ := h.batch (hpick.subperm (min batchLimit (workLimit limit - s.nodeWork)) s.frontier)
    rw [loadTurn]
    simp only [hremaining, if_false]
    generalize pick (min batchLimit (workLimit limit - s.nodeWork)) s.frontier = ids at hlength hids hnew hseen ⊢
    by_cases hempty : ids = []
    · refine .inl ⟨by simp [hempty], ?_⟩
      rw [hempty, List.length_nil] at hlength
      have hbatch : batchLimit = 256 := rfl
      exact List.length_eq_zero_iff.mp (by omega)
    · have hcount := length_edges table ids
      have hwork := h.edgeWork
      have hread : (s.seen ++ ids).Nodup :=
        List.nodup_append.mpr ⟨h.nodup.of_append_left, hids, fun a ha b hb he => (hnew b hb).1 (he ▸ ha)⟩
      have hreach : ∀ id ∈ s.seen ++ ids, Reachable table roots id := by
        intro id hid
        obtain hid | hid := List.mem_append.mp hid
        · exact h.sound id (List.mem_append_left _ hid)
        · exact (hnew id hid).2
      simp only [hempty, if_false]
      by_cases hover : workLimit limit - s.edgeWork < edgeCount table ids
      · -- the rows that the limit lets through are one more than the budget
        refine .inr (.inl ⟨?_, s.seen ++ ids, hread, hreach, .inr ?_⟩)
        · rw [if_pos (by rw [List.length_take, hcount]; omega)]
        · rw [edgeCount_append]
          omega
      · have htake : (ids.flatMap fun id => (nodeSources table id).map fun source => (id, source)).take
          (workLimit limit - s.edgeWork + 1) =
            ids.flatMap fun id => (nodeSources table id).map fun source => (id, source) :=
              List.take_of_length_le (by omega)
        rw [htake, hcount, if_neg hover, hseen]
        refine .inr (.inr ⟨_, rfl, ?_, ?_⟩)
        · exact h.read hids hnew (by omega) (by omega)
        · have hpos := List.length_pos_iff.mpr hempty
          show s.nodeWork < s.nodeWork + ids.length
          omega

/-! ## The walk -/

/-- With one more turn than nodes are left in the budget, the walk has read all that is reachable or
raises over a budget. -/
theorem loadLoop_spec (hpick : Picks pick) (turns : Nat) : ∀ {s : Load}, Loads table limit roots s →
    workLimit limit < s.nodeWork + turns →
    (∃ last, loadLoop pick table limit turns s = some (.ok last.lineage) ∧
      Loads table limit roots last ∧ last.frontier = []) ∨
      (loadLoop pick table limit turns s = some (.error (boundExceeded limit)) ∧ OverBudget table limit roots) := by
  induction turns with
  | zero =>
    intro s h hturns
    have hbound := h.bounded.1
    omega
  | succ turns ih =>
    intro s h hturns
    rw [loadLoop]
    obtain ⟨hturn, hfrontier⟩ | ⟨hturn, hover⟩ | ⟨next, hturn, hnext, hmore⟩ := loadTurn_spec hpick h
    · rw [hturn]
      exact .inl ⟨s, rfl, h, hfrontier⟩
    · rw [hturn]
      exact .inr ⟨rfl, hover⟩
    · rw [hturn]
      exact ih hnext (by omega)

/-- The tables name finitely many nodes. -/
theorem reachable_finite (table : SummaryNodes) (roots : List Int) : {id | Reachable table roots id}.Finite := by
  refine (roots ++ table.rows.flatMap fun row => row.2.sourceIds).finite_toSet.subset ?_
  rintro id ⟨root, hroot, hreach⟩
  rw [Set.mem_ofPred_eq, List.mem_append]
  cases hreach with
  | refl => exact .inl hroot
  | @tail parent _ hreach hedge =>
    right
    have hsource : id ∈ nodeSources table parent := hedge
    rw [nodeSources] at hsource
    split at hsource
    · rename_i ids hrow
      exact List.mem_flatMap.mpr ⟨_, KeyedTable.get_eq_some.mp hrow, hsource⟩
    · cases hsource

/-- Whatever is reachable has been read when nothing is left in the frontier. -/
theorem Loads.seen_iff (h : Loads table limit roots s) (hfrontier : s.frontier = []) {id : Int} :
    id ∈ s.seen ↔ Reachable table roots id := by
  have hroots := h.roots
  have hclosed := h.closed
  have hsound := h.sound
  rw [hfrontier, List.append_nil] at hroots hclosed hsound
  refine ⟨hsound id, ?_⟩
  rintro ⟨root, hroot, hreach⟩
  induction hreach with
  | refl => exact hroots root hroot
  | tail _ hedge ih => exact hclosed _ ih _ hedge

theorem edgeCount_eq_sum {ids : List Int} (h : ids.Nodup) :
    edgeCount table ids = ∑ id ∈ ids.toFinset, (nodeSources table id).length :=
  (List.sum_toFinset _ h).symm

/-- A walk that is over keeps its result with more turns. -/
theorem loadLoop_more {turns : Nat} {result : Except LoadError SourceLineage} : ∀ {s : Load} {turns' : Nat},
    loadLoop pick table limit turns s = some result → turns ≤ turns' →
      loadLoop pick table limit turns' s = some result := by
  induction turns with
  | zero =>
    intro s turns' h
    cases h
  | succ turns ih =>
    intro s turns' h hmore
    obtain ⟨turns', rfl⟩ : ∃ n, turns' = n + 1 := ⟨turns' - 1, by omega⟩
    rw [loadLoop] at h ⊢
    split
    · rename_i error hturn
      rwa [hturn] at h
    · rename_i hturn
      rwa [hturn] at h
    · rename_i next hturn
      rw [hturn] at h
      exact ih h (by omega)

theorem Loads.not_exceeds (h : Loads table limit roots s) (hfrontier : s.frontier = []) {ids : Finset Int}
    (hids : ∀ id, id ∈ ids ↔ Reachable table roots id) :
    ¬ (workLimit limit < ids.card ∨ workLimit limit < ∑ id ∈ ids, (nodeSources table id).length) := by
  have hnodup := h.nodup.of_append_left
  have hsame : ids = s.seen.toFinset := by
    ext id
    rw [List.mem_toFinset, hids, h.seen_iff hfrontier]
  have hnode := h.nodeWork
  have hedge := h.edgeWork
  obtain ⟨hnodes, hedges⟩ := h.bounded
  rw [hsame, List.toFinset_card_of_nodup hnodup, ← edgeCount_eq_sum hnodup]
  omega

theorem OverBudget.exceeds (h : OverBudget table limit roots) {ids : Finset Int}
    (hids : ∀ id, id ∈ ids ↔ Reachable table roots id) :
    workLimit limit < ids.card ∨ workLimit limit < ∑ id ∈ ids, (nodeSources table id).length := by
  obtain ⟨read, hnodup, hreach, hover⟩ := h
  have hsubset : read.toFinset ⊆ ids := fun id hid => (hids id).mpr (hreach id (List.mem_toFinset.mp hid))
  obtain hnodes | hedges := hover
  · left
    have hcard := Finset.card_le_card hsubset
    rw [List.toFinset_card_of_nodup hnodup] at hcard
    omega
  · right
    rw [edgeCount_eq_sum hnodup] at hedges
    exact hedges.trans_le (Finset.sum_le_sum_of_subset hsubset)

/-- The roots are the first frontier. -/
theorem loads_roots (table : SummaryNodes) (limit : Int) (roots : List Int) :
    Loads table limit roots ⟨roots.foldl insertIgnore [], [], .empty, 0, 0⟩ := by
  have hmem : ∀ id, id ∈ roots.foldl insertIgnore [] ↔ id ∈ roots := fun id => by simp [mem_insertIgnore]
  constructor
  case nodup => exact nodup_insertIgnore List.nodup_nil
  case sound => exact fun id hid => ⟨id, (hmem id).mp hid, .refl⟩
  case roots => exact fun id hid => (hmem id).mpr hid
  case closed => exact fun id hid => absurd hid List.not_mem_nil
  case nodeWork => rfl
  case edgeWork => rfl
  case bounded => exact ⟨Nat.zero_le _, Nat.zero_le _⟩
  case lineage => exact fun id => rfl

/-- The walk returns, and raises exactly when the reachable ids or their edges are more than the
limit, which counts as zero when it is negative. Otherwise it gives each reachable node that exists,
with its sources. What is reachable does not depend on how the frontier is cut into batches. -/
theorem loadSourceLineage_exact (table : SummaryNodes) (limit : Int) (rootNodeIds : List Int) : ∃ ids : Finset Int,
    (∀ id, id ∈ ids ↔ Reachable table rootNodeIds id) ∧ ∀ pick, Picks pick → ∃ result,
      (∃ enough, ∀ turns ≥ enough, loadSourceLineageStaged pick table limit turns rootNodeIds = some result) ∧
      (max 0 limit < ids.card ∨ max 0 limit < (∑ id ∈ ids, (nodeSources table id).length : Nat) →
      result = .error (boundExceeded limit)) ∧
      (¬ (max 0 limit < ids.card ∨ max 0 limit < (∑ id ∈ ids, (nodeSources table id).length : Nat)) →
      ∃ lineage, result = .ok lineage ∧
        ∀ id, lineage.get id = if id ∈ ids then (table.get id).map fun _ => nodeSources table id else none) := by
  have hfinite := reachable_finite table rootNodeIds
  have hids : ∀ id, id ∈ hfinite.toFinset ↔ Reachable table rootNodeIds id := fun id => hfinite.mem_toFinset
  refine ⟨hfinite.toFinset, hids, fun pick hpick => ?_⟩
  generalize hfinite.toFinset = ids at hids ⊢
  have hwork : (workLimit limit : Int) = max 0 limit := by
    rw [workLimit, Int.toNat_eq_max, max_comm]
  rw [← hwork]
  simp only [Nat.cast_lt]
  have hmem : ∀ id, id ∈ rootNodeIds.foldl insertIgnore [] ↔ id ∈ rootNodeIds := fun id => by simp [mem_insertIgnore]
  by_cases hnone : rootNodeIds.foldl insertIgnore [] = []
  · have hempty : ids = ∅ := by
      refine Finset.eq_empty_of_forall_notMem fun id hid => ?_
      obtain ⟨root, hroot, -⟩ := (hids id).mp hid
      rw [← hmem, hnone] at hroot
      cases hroot
    refine ⟨.ok .empty, ⟨0, fun turns _ => by simp [loadSourceLineageStaged, hnone]⟩,
      fun hover => ?_, fun _ => ⟨.empty, rfl, fun id => by simp [hempty]⟩⟩
    rw [hempty] at hover
    simp at hover
  by_cases hroots : workLimit limit < (rootNodeIds.foldl insertIgnore []).length
  · have hover : OverBudget table limit rootNodeIds :=
      ⟨_, nodup_insertIgnore List.nodup_nil, fun id hid => ⟨id, (hmem id).mp hid, .refl⟩, .inl hroots⟩
    exact ⟨.error (boundExceeded limit),
      ⟨0, fun turns _ => by simp [loadSourceLineageStaged, hnone, hroots]⟩, fun _ => rfl,
      fun hnot => absurd (hover.exceeds hids) hnot⟩
  · have hload : ∀ turns, loadSourceLineageStaged pick table limit turns rootNodeIds =
        loadLoop pick table limit turns ⟨rootNodeIds.foldl insertIgnore [], [], .empty, 0, 0⟩ := by
      intro turns
      simp [loadSourceLineageStaged, hnone, hroots]
    have hstart := loads_roots table limit rootNodeIds
    have hturns : ∀ {result}, loadLoop pick table limit (workLimit limit + 1)
      ⟨rootNodeIds.foldl insertIgnore [], [], .empty, 0, 0⟩ = some result →
        ∃ enough, ∀ turns ≥ enough, loadSourceLineageStaged pick table limit turns rootNodeIds = some result :=
      fun h => ⟨_, fun turns hmore => (hload turns).trans (loadLoop_more h hmore)⟩
    obtain ⟨last, hdone, hlast, hfrontier⟩ | ⟨herror, hover⟩ :=
      loadLoop_spec hpick (workLimit limit + 1) hstart (by show _ < 0 + _; omega)
    · exact ⟨_, hturns hdone, fun hover => absurd hover (hlast.not_exceeds hfrontier hids),
        fun _ => ⟨_, rfl, fun id => by
        rw [hlast.lineage]
        exact if_congr ((hlast.seen_iff hfrontier).trans (hids id).symm) rfl rfl⟩⟩
    · exact ⟨_, hturns herror, fun _ => rfl, fun hnot => absurd (hover.exceeds hids) hnot⟩

/-! ## The rows in the order of the table -/

def takeRows (k : Nat) (rows : List Int) : List Int := rows.take k

theorem picks_takeRows : Picks takeRows := ⟨fun k rows => (rows.take_sublist k).subperm, fun _ _ => List.length_take⟩

/-- Two nodes that are made from each other, one of them also from a missing one. -/
def cyclicNodes : SummaryNodes := ⟨[(1, ⟨.nodes, [2]⟩), (2, ⟨.nodes, [1, 3, 3]⟩)], by decide⟩

example : (loadSourceLineageStaged takeRows cyclicNodes 4 4 [1]).map
    (fun result => result.toOption.map KeyedTable.rows) =
    some (some [(1, [2]), (2, [1, 3, 3])]) := by decide

theorem loadSourceLineage_cyclic : ∃ ids : Finset Int, (∀ id, id ∈ ids ↔ Reachable cyclicNodes [1] id) ∧ ∃ result,
    (∃ enough, ∀ turns ≥ enough, loadSourceLineageStaged takeRows cyclicNodes 4 turns [1] = some result) ∧
    (¬ (max 0 4 < (ids.card : Int) ∨
      max 0 4 < ((∑ id ∈ ids, (nodeSources cyclicNodes id).length : Nat) : Int)) → ∃ lineage, result = .ok lineage ∧
      ∀ id, lineage.get id = if id ∈ ids then
      (cyclicNodes.get id).map fun _ => nodeSources cyclicNodes id else none) := by
  obtain ⟨ids, hids, hloads⟩ := loadSourceLineage_exact cyclicNodes 4 [1]
  obtain ⟨result, hturns, -, hok⟩ := hloads takeRows picks_takeRows
  exact ⟨ids, hids, result, hturns, hok⟩

/-- Without roots nothing is raised, also when the limit is negative and so less than none. -/
theorem no_roots_below_zero : ¬ ∀ (table : SummaryNodes) (limit : Int) (rootNodeIds : List Int) (ids : Finset Int),
    (∀ id, id ∈ ids ↔ Reachable table rootNodeIds id) → limit < ids.card →
      ∃ turns, loadSourceLineageStaged takeRows table limit turns rootNodeIds =
      some (.error (boundExceeded limit)) := by
  intro h
  have hids : ∀ id, id ∈ (∅ : Finset Int) ↔ Reachable .empty [] id := by
    intro id
    simp [Reachable]
  obtain ⟨turns, hturns⟩ := h .empty (-1) [] ∅ hids (by decide)
  simp [loadSourceLineageStaged] at hturns

end RollupFrontier
