import LcmX.Lib.KeyedTable
import LcmX.Lib.Fallible
import LcmX.Lib.Lineage
import Mathlib.Data.Finset.Lattice.Basic
import Mathlib.Data.Finset.Insert

/-!
# The canonical frontier

`canonical_frontier` of rollup_periods.py: each candidate is reduced to its
terminal lineage by a memoised walk, equal lineages collapse to one
representative, and the maximal ones are returned.
-/
namespace RollupFrontier

open Lineage Fallible

structure CoverageNode where
  nodeId : Int
  depth : Int
  sourceNodeIds : List Int
deriving DecidableEq, Repr

/-- `source_lineage`, and the dictionary that the walk reads. -/
abbrev SourceLineage := KeyedTable Int (List Int)

abbrev LeafMemo := KeyedTable Int (Finset Int)

inductive FrontierFailure where
  /-- `CanonicalFrontierOverlapError` -/
  | overlapError (message : String)
  /-- The walk had no frame left. -/
  | recursionLimit
deriving DecidableEq, Repr

/-! ## The walk -/

/-- `lineage.get(node_id, ())` -/
def sourceIds (lineage : SourceLineage) (nodeId : Int) : List Int := (lineage.get nodeId).getD []

/-- The candidates add their own sources where the map has none. -/
def lineageOf (nodes : List CoverageNode) (sourceLineage : SourceLineage) : SourceLineage :=
  nodes.foldl (fun lineage node => lineage.insert node.nodeId node.sourceNodeIds) sourceLineage

/-- The union of what a walk finds from each source, the memo passed along. -/
def gather (walk : Int → LeafMemo → Except FrontierFailure (Finset Int × LeafMemo)) :
    List Int → LeafMemo → Except FrontierFailure (Finset Int × LeafMemo)
  | [], memo => .ok (∅, memo)
  | sourceId :: rest, memo => do
    let (found, memo) ← walk sourceId memo
    let (others, memo) ← gather walk rest memo
    return (found ∪ others, memo)

/-- `terminal_lineage`, with the number of frames that it may nest. -/
def terminalLineage (lineage : SourceLineage) :
    Nat → List Int → Int → LeafMemo → Except FrontierFailure (Finset Int × LeafMemo)
  | 0, _, _, _ => .error .recursionLimit
  | frames + 1, active, nodeId, memo =>
    match memo.get nodeId with
    | some cached => .ok (cached, memo)
    | none =>
      if nodeId ∈ active then .error (.overlapError s!"summary lineage cycle reaches node {nodeId}")
      else if sourceIds lineage nodeId = [] then .ok ({nodeId}, memo.assign nodeId {nodeId})
      else do
        let (leaves, memo) ← gather (terminalLineage lineage frames (nodeId :: active)) (sourceIds lineage nodeId) memo
        return (leaves, memo.assign nodeId leaves)

/-! ## Candidates by leaf set -/

abbrev LeafGroups := KeyedTable (Finset Int) (List CoverageNode)

/-- `by_leaf_set.setdefault(leaves, []).append(node)` -/
def addNode (groups : LeafGroups) (leaves : Finset Int) (node : CoverageNode) : LeafGroups :=
  (groups.insert leaves []).modify leaves (· ++ [node])

def groupNode (lineage : SourceLineage) (frames : Nat) (s : LeafGroups × LeafMemo) (node : CoverageNode) :
    Except FrontierFailure (LeafGroups × LeafMemo) := do
  let (leaves, memo) ← terminalLineage lineage frames [] node.nodeId s.2
  return (addNode s.1 leaves node, memo)

/-- The order of the key `(-depth, node_id)`. -/
def keyLt (a b : CoverageNode) : Prop := b.depth < a.depth ∨ (a.depth = b.depth ∧ a.nodeId < b.nodeId)

instance : DecidableRel keyLt := fun _ _ => inferInstanceAs (Decidable (_ ∨ _))

/-- `min(group, key=..)`: the first of the least. -/
def representative : List CoverageNode → Option CoverageNode
  | [] => none
  | node :: rest => some (rest.foldl (fun best other => if keyLt other best then other else best) node)

def representatives (groups : LeafGroups) : List (Finset Int × CoverageNode) :=
  groups.rows.filterMap fun g => (representative g.2).map fun node => (g.1, node)

def partialOverlap (left right : Finset Int) : Prop := (left ∩ right).Nonempty ∧ ¬ (left ⊆ right ∨ right ⊆ left)

instance : DecidableRel partialOverlap := fun left right =>
  inferInstanceAs (Decidable ((left ∩ right).Nonempty ∧ ¬ (left ⊆ right ∨ right ⊆ left)))

/-- The two loops over the leaf sets. -/
def anyOverlap : List (Finset Int) → Bool
  | [] => false
  | left :: rest => (rest.any fun right => partialOverlap left right) || anyOverlap rest

def selectedIds (chosen : List (Finset Int × CoverageNode)) : List Int :=
  (chosen.filter fun c => ¬ (chosen.map Prod.fst).any fun other => c.1 ⊂ other).map fun c => c.2.nodeId

def canonicalFrontier (frames : Nat) (nodes : List CoverageNode) (sourceLineage : SourceLineage) :
    Except FrontierFailure (List CoverageNode) := do
  let (groups, _) ← nodes.foldlM (groupNode (lineageOf nodes sourceLineage) frames) (.empty, .empty)
  let chosen := representatives groups
  if anyOverlap (chosen.map Prod.fst) then
    throw (.overlapError "summary lineages partially overlap without containment")
  return nodes.filter fun node => node.nodeId ∈ selectedIds chosen

/-! ## What the walk finds -/

variable {lineage : SourceLineage} {frames : Nat} {active : List Int} {nodeId : Int}
  {leaves : Finset Int} {memo memo' : LeafMemo}

/-- The set that the walk is to find, below which no cycle is. -/
structure Explored (lineage : SourceLineage) (nodeId : Int) (leaves : Finset Int) : Prop where
  exact : (leaves : Set Int) = terminals (sourceIds lineage) nodeId
  acyclic : ¬ CycleBelow (sourceIds lineage) nodeId

def MemoSound (lineage : SourceLineage) (memo : LeafMemo) : Prop :=
  ∀ nodeId leaves, memo.get nodeId = some leaves → Explored lineage nodeId leaves

theorem memoSound_empty (lineage : SourceLineage) : MemoSound lineage .empty := by
  intro nodeId leaves h
  cases h

theorem MemoSound.assign (h : MemoSound lineage memo) (hnew : Explored lineage nodeId leaves) :
    MemoSound lineage (memo.assign nodeId leaves) := by
  intro id found hget
  rw [KeyedTable.get_assign] at hget
  by_cases heq : id = nodeId
  · rw [if_pos heq] at hget
    cases hget
    exact heq ▸ hnew
  · rw [if_neg heq] at hget
    exact h id found hget

/-- A walk either finds the set or meets a cycle, and it never runs out of frames. -/
def Faithful (lineage : SourceLineage) (nodeId : Int) : Except FrontierFailure (Finset Int × LeafMemo) → Prop
  | .ok (leaves, memo) => Explored lineage nodeId leaves ∧ MemoSound lineage memo
  | .error (.overlapError _) => CycleBelow (sourceIds lineage) nodeId
  | .error .recursionLimit => False

/-- The sets of several sources, gathered by a faithful walk. -/
def GatheredFrom (lineage : SourceLineage) (ids : List Int) : Except FrontierFailure (Finset Int × LeafMemo) → Prop
  | .ok (leaves, memo) =>
    (∀ l, l ∈ leaves ↔ ∃ id ∈ ids, l ∈ terminals (sourceIds lineage) id) ∧
      (∀ id ∈ ids, ¬ CycleBelow (sourceIds lineage) id) ∧ MemoSound lineage memo
  | .error (.overlapError _) => ∃ id ∈ ids, CycleBelow (sourceIds lineage) id
  | .error .recursionLimit => False

/-- Gathering faithful walks is faithful. -/
theorem gather_spec {walk : Int → LeafMemo → Except FrontierFailure (Finset Int × LeafMemo)} {ids : List Int}
    (hwalk : ∀ id ∈ ids, ∀ memo, MemoSound lineage memo → Faithful lineage id (walk id memo)) :
    ∀ memo, MemoSound lineage memo → GatheredFrom lineage ids (gather walk ids memo) := by
  induction ids with
  | nil =>
    intro memo hmemo
    exact ⟨by simp, by simp, hmemo⟩
  | cons id ids ih =>
    intro memo hmemo
    have hfirst := hwalk id List.mem_cons_self memo hmemo
    unfold gather
    cases hfound : walk id memo with
    | error e =>
      rw [hfound] at hfirst
      cases e with
      | overlapError message => exact ⟨id, List.mem_cons_self, hfirst⟩
      | recursionLimit => exact hfirst
    | ok found =>
      obtain ⟨leaves, memo₁⟩ := found
      rw [hfound] at hfirst
      obtain ⟨⟨hexact, hacyclic⟩, hmemo₁⟩ := hfirst
      have hrest := ih (fun x hx => hwalk x (List.mem_cons_of_mem id hx)) memo₁ hmemo₁
      change GatheredFrom lineage (id :: ids) (gather walk ids memo₁ >>= _)
      cases hothers : gather walk ids memo₁ with
      | error e =>
        rw [hothers] at hrest
        cases e with
        | overlapError message =>
          obtain ⟨x, hx, hcycle⟩ := hrest
          exact ⟨x, List.mem_cons_of_mem id hx, hcycle⟩
        | recursionLimit => exact hrest
      | ok others =>
        obtain ⟨others, memo₂⟩ := others
        rw [hothers] at hrest
        obtain ⟨hothers, hnone, hmemo₂⟩ := hrest
        refine ⟨fun l => ?_, ?_, hmemo₂⟩
        · have hl : l ∈ leaves ↔ l ∈ terminals (sourceIds lineage) id := by rw [← hexact, Finset.mem_coe]
          rw [Finset.mem_union, hl, hothers l, List.exists_mem_cons_iff]
        · intro x hx
          cases List.mem_cons.mp hx with
          | inl heq => exact heq ▸ hacyclic
          | inr hin => exact hnone x hin

/-- The nodes under way have sources, each reaches the next, and there is a frame for every node that has sources. -/
structure UnderWay (lineage : SourceLineage) (frames : Nat) (active : List Int) (nodeId : Int) : Prop where
  nodup : active.Nodup
  listed : active ⊆ lineage.rows.map Prod.fst
  reaches : ∀ a ∈ active, Relation.TransGen (Edge (sourceIds lineage)) a nodeId
  frames : lineage.rows.length < frames + active.length

theorem mem_keys_of_sources (h : sourceIds lineage nodeId ≠ []) : nodeId ∈ lineage.rows.map Prod.fst := by
  by_contra hnot
  rw [sourceIds, KeyedTable.get_eq_none.mpr hnot] at h
  exact h rfl

theorem UnderWay.next (h : UnderWay lineage (frames + 1) active nodeId) (hfresh : nodeId ∉ active) {id : Int}
    (hid : id ∈ sourceIds lineage nodeId) : UnderWay lineage frames (nodeId :: active) id := by
  constructor
  · exact List.nodup_cons.mpr ⟨hfresh, h.nodup⟩
  · exact List.cons_subset.mpr ⟨mem_keys_of_sources (List.ne_nil_of_mem hid), h.listed⟩
  · intro a ha
    cases List.mem_cons.mp ha with
    | inl heq => exact heq ▸ .single hid
    | inr hin => exact (h.reaches a hin).tail hid
  · have hframes := h.frames
    rw [List.length_cons]
    omega

/-- The walk below a node finds its leaves or meets a cycle, and has frames enough. -/
theorem terminalLineage_spec (lineage : SourceLineage) :
    ∀ frames active nodeId memo, UnderWay lineage frames active nodeId → MemoSound lineage memo →
      Faithful lineage nodeId (terminalLineage lineage frames active nodeId memo) := by
  intro frames
  induction frames with
  | zero =>
    intro active nodeId memo h _
    -- More nodes would be under way than have sources.
    have hle := (h.nodup.subperm h.listed).length_le
    have hframes := h.frames
    rw [List.length_map] at hle
    omega
  | succ frames ih =>
    intro active nodeId memo h hmemo
    unfold terminalLineage
    cases hcached : memo.get nodeId with
    | some cached => exact ⟨hmemo nodeId cached hcached, hmemo⟩
    | none =>
      dsimp only
      by_cases hactive : nodeId ∈ active
      · rw [if_pos hactive]
        exact cycleBelow_of_cycle (h.reaches nodeId hactive)
      · rw [if_neg hactive]
        by_cases hnil : sourceIds lineage nodeId = []
        · rw [if_pos hnil]
          have hleaf : Explored lineage nodeId {nodeId} := by
            constructor
            · rw [terminals_of_nil hnil, Finset.coe_singleton]
            · rw [cycleBelow_iff, hnil]
              simp
          exact ⟨hleaf, hmemo.assign hleaf⟩
        · rw [if_neg hnil]
          have hall := gather_spec (fun id hid memo hmemo => ih (nodeId :: active) id memo
            (h.next hactive hid) hmemo) memo hmemo
          cases hfound : gather (terminalLineage lineage frames (nodeId :: active)) (sourceIds lineage nodeId) memo with
          | error e =>
            rw [hfound] at hall
            cases e with
            | overlapError message => exact cycleBelow_iff.mpr hall
            | recursionLimit => exact hall
          | ok found =>
            obtain ⟨leaves, memo'⟩ := found
            rw [hfound] at hall
            obtain ⟨hleaves, hnone, hmemo'⟩ := hall
            have hexplored : Explored lineage nodeId leaves := by
              constructor
              · ext l
                rw [Finset.mem_coe, hleaves l, mem_terminals hnil]
              · rw [cycleBelow_iff]
                rintro ⟨id, hid, hcycle⟩
                exact hnone id hid hcycle
            exact ⟨hexplored, hmemo'.assign hexplored⟩

end RollupFrontier
