import LcmX.RollupFrontier
import Mathlib

/-!
# The frontier is canonical

The frontier fails exactly on a cycle or a partial overlap. Otherwise its leaf sets
are the maximal ones, so they are disjoint and cover every candidate, and the order
of the candidates and of the map plays no part in the choice.
-/
namespace RollupFrontier

open Lineage Fallible

/-- The terminal-leaf set of a node, as the candidates and the map give it. -/
def leafSet (nodes : List CoverageNode) (sourceLineage : SourceLineage) (nodeId : Int) : Set Int :=
  terminals (sourceIds (lineageOf nodes sourceLineage)) nodeId

def CycleReached (nodes : List CoverageNode) (sourceLineage : SourceLineage) : Prop :=
  ∃ node ∈ nodes, CycleBelow (sourceIds (lineageOf nodes sourceLineage)) node.nodeId

def Overlapping (A B : Set Int) : Prop := (A ∩ B).Nonempty ∧ ¬ (A ⊆ B ∨ B ⊆ A)

/-- Two candidates share a leaf and neither contains the other. -/
def OverlapMet (nodes : List CoverageNode) (sourceLineage : SourceLineage) : Prop :=
  ∃ left ∈ nodes, ∃ right ∈ nodes,
    Overlapping (leafSet nodes sourceLineage left.nodeId) (leafSet nodes sourceLineage right.nodeId)

/-! ## Groups -/

variable {lineage : SourceLineage} {frames : Nat} {nodes done : List CoverageNode} {groups : LeafGroups}
  {chosen : List (Finset Int × CoverageNode)}

structure Grouped (lineage : SourceLineage) (done : List CoverageNode) (groups : LeafGroups) : Prop where
  cover : ∀ node ∈ done, ∃ leaves group, groups.get leaves = some group ∧ node ∈ group
  sound : ∀ leaves group, groups.get leaves = some group → group ≠ [] ∧
    ∀ node ∈ group, node ∈ done ∧ (leaves : Set Int) = terminals (sourceIds lineage) node.nodeId
  acyclic : ∀ node ∈ done, ¬ CycleBelow (sourceIds lineage) node.nodeId

theorem grouped_empty (lineage : SourceLineage) : Grouped lineage [] .empty := by
  constructor
  · simp
  · intro leaves group h
    cases h
  · simp

theorem get_addNode (groups : LeafGroups) (leaves k : Finset Int) (node : CoverageNode) :
    (addNode groups leaves node).get k = if k = leaves then
      some ((groups.get leaves).getD [] ++ [node]) else groups.get k := by
  unfold addNode
  rw [KeyedTable.get_modify, KeyedTable.get_insert, KeyedTable.get_insert]
  by_cases hk : k = leaves
  · subst hk
    rw [if_pos rfl, if_pos rfl]
    cases groups.get k <;> simp
  · rw [if_neg hk, if_neg hk]
    cases groups.get k <;> simp [hk]

/-- A node joins the group of its leaves, or founds it. -/
theorem Grouped.addNode (h : Grouped lineage done groups) {node : CoverageNode} {leaves : Finset Int}
    (hnew : Explored lineage node.nodeId leaves) : Grouped lineage (done ++ [node]) (addNode groups leaves node) := by
  constructor
  · intro n hn
    cases List.mem_append.mp hn with
    | inl hold =>
      obtain ⟨k, group, hget, hin⟩ := h.cover n hold
      by_cases hk : k = leaves
      · subst hk
        refine ⟨k, group ++ [node], ?_, List.mem_append_left _ hin⟩
        rw [get_addNode, if_pos rfl, hget, Option.getD_some]
      · refine ⟨k, group, ?_, hin⟩
        rw [get_addNode, if_neg hk, hget]
    | inr hlast =>
      rw [List.mem_singleton.mp hlast]
      refine ⟨leaves, (groups.get leaves).getD [] ++ [node], ?_, by simp⟩
      rw [get_addNode, if_pos rfl]
  · intro k group hget
    rw [get_addNode] at hget
    by_cases hk : k = leaves
    · rw [if_pos hk] at hget
      cases hget
      refine ⟨by simp, fun n hn => ?_⟩
      cases List.mem_append.mp hn with
      | inl hold =>
        cases hgroup : groups.get leaves with
        | none =>
          rw [hgroup] at hold
          cases hold
        | some group =>
          rw [hgroup] at hold
          obtain ⟨hdone, heq⟩ := (h.sound leaves group hgroup).2 n hold
          exact ⟨List.mem_append_left _ hdone, hk ▸ heq⟩
      | inr hlast =>
        rw [List.mem_singleton.mp hlast]
        exact ⟨by simp, hk ▸ hnew.exact⟩
    · rw [if_neg hk] at hget
      obtain ⟨hne, hall⟩ := h.sound k group hget
      exact ⟨hne, fun n hn => ⟨List.mem_append_left _ (hall n hn).1, (hall n hn).2⟩⟩
  · intro n hn
    cases List.mem_append.mp hn with
    | inl hold => exact h.acyclic n hold
    | inr hlast => exact List.mem_singleton.mp hlast ▸ hnew.acyclic

/-- What grouping the candidates comes to. -/
def GroupedOr (lineage : SourceLineage) (nodes : List CoverageNode) :
    Except FrontierFailure (LeafGroups × LeafMemo) → Prop
  | .ok (groups, _) => Grouped lineage nodes groups
  | .error (.overlapError _) => ∃ node ∈ nodes, CycleBelow (sourceIds lineage) node.nodeId
  | .error .recursionLimit => False

/-- Grouping the rest of the nodes groups them all, or meets a cycle below one. -/
theorem groups_spec (hframes : lineage.rows.length < frames) (rest : List CoverageNode) :
    ∀ done groups memo, Grouped lineage done groups → MemoSound lineage memo →
      GroupedOr lineage (done ++ rest) (rest.foldlM (groupNode lineage frames) (groups, memo)) := by
  induction rest with
  | nil =>
    intro done groups memo h _
    rw [List.append_nil]
    exact h
  | cons node rest ih =>
    intro done groups memo h hmemo
    have hwalk := terminalLineage_spec lineage frames [] node.nodeId memo
      ⟨by simp, by simp, by simp, by simpa using hframes⟩ hmemo
    rw [List.foldlM_cons]
    unfold groupNode
    cases hfound : terminalLineage lineage frames [] node.nodeId memo with
    | error e =>
      rw [hfound] at hwalk
      cases e with
      | overlapError message => exact ⟨node, by simp, hwalk⟩
      | recursionLimit => exact hwalk
    | ok found =>
      obtain ⟨leaves, memo'⟩ := found
      rw [hfound] at hwalk
      have hrest := ih (done ++ [node]) (RollupFrontier.addNode groups leaves node) memo' (h.addNode hwalk.1) hwalk.2
      rw [List.append_assoc, List.singleton_append] at hrest
      exact hrest

/-! ## Representatives -/

theorem keyLt_trichotomy {a b : CoverageNode} (hab : ¬ keyLt a b) (hba : ¬ keyLt b a) : a.nodeId = b.nodeId := by
  unfold keyLt at hab hba
  omega

/-- The fold returns a node that none of the list precedes. -/
theorem foldl_least (rest : List CoverageNode) : ∀ node,
    rest.foldl (fun best other => if keyLt other best then other else best) node ∈ node :: rest ∧
      ∀ m ∈ node :: rest, ¬ keyLt m (rest.foldl (fun best other => if keyLt other best then other else best) node) := by
  induction rest with
  | nil =>
    intro node
    refine ⟨List.mem_cons_self, fun m hm => ?_⟩
    rw [List.mem_singleton.mp hm, List.foldl_nil]
    unfold keyLt
    omega
  | cons other rest ih =>
    intro node
    rw [List.foldl_cons]
    by_cases hlt : keyLt other node
    · rw [if_pos hlt]
      obtain ⟨hin, hleast⟩ := ih other
      refine ⟨List.mem_cons_of_mem node hin, fun m hm => ?_⟩
      cases List.mem_cons.mp hm with
      | inl heq =>
        subst heq
        have hother := hleast other List.mem_cons_self
        unfold keyLt at hother hlt ⊢
        omega
      | inr hrest => exact hleast m hrest
    · rw [if_neg hlt]
      obtain ⟨hin, hleast⟩ := ih node
      constructor
      · cases List.mem_cons.mp hin with
        | inl heq =>
          rw [heq]
          exact List.mem_cons_self
        | inr hrest => exact List.mem_cons_of_mem node (List.mem_cons_of_mem other hrest)
      · intro m hm
        cases List.mem_cons.mp hm with
        | inl heq => exact hleast m (heq ▸ List.mem_cons_self)
        | inr hm =>
          cases List.mem_cons.mp hm with
          | inl heq =>
            subst heq
            have hnode := hleast node List.mem_cons_self
            unfold keyLt at hnode hlt ⊢
            omega
          | inr hrest => exact hleast m (List.mem_cons_of_mem node hrest)

theorem representative_spec {group : List CoverageNode} {node : CoverageNode} (h : representative group = some node) :
    node ∈ group ∧ ∀ m ∈ group, ¬ keyLt m node := by
  cases group with
  | nil => cases h
  | cons first rest =>
    cases h
    exact foldl_least rest first

/-- The representatives, by what they stand for. -/
structure Chosen (lineage : SourceLineage) (nodes : List CoverageNode)
    (chosen : List (Finset Int × CoverageNode)) : Prop where
  sound : ∀ c ∈ chosen, c.2 ∈ nodes ∧ (c.1 : Set Int) = terminals (sourceIds lineage) c.2.nodeId ∧
    ∀ m ∈ nodes, terminals (sourceIds lineage) m.nodeId = terminals (sourceIds lineage) c.2.nodeId → ¬ keyLt m c.2
  cover : ∀ node ∈ nodes, ∃ c ∈ chosen, (c.1 : Set Int) = terminals (sourceIds lineage) node.nodeId

/-- The representatives of the groups are the chosen nodes. -/
theorem chosen_representatives (h : Grouped lineage nodes groups) : Chosen lineage nodes (representatives groups) := by
  have hmem : ∀ c : Finset Int × CoverageNode, c ∈ representatives groups ↔
      ∃ group, groups.get c.1 = some group ∧ representative group = some c.2 := by
    rintro ⟨leaves, node⟩
    unfold representatives
    rw [List.mem_filterMap]
    constructor
    · rintro ⟨⟨k, group⟩, hin, heq⟩
      obtain ⟨r, hr, heq⟩ := Option.map_eq_some_iff.mp heq
      cases heq
      exact ⟨group, KeyedTable.get_eq_some.mpr hin, hr⟩
    · rintro ⟨group, hget, hr⟩
      exact ⟨(leaves, group), KeyedTable.get_eq_some.mp hget, by rw [hr]; rfl⟩
  constructor
  · intro c hc
    obtain ⟨group, hget, hr⟩ := (hmem c).mp hc
    obtain ⟨hin, hleast⟩ := representative_spec hr
    have hsound := (h.sound c.1 group hget).2
    refine ⟨(hsound c.2 hin).1, (hsound c.2 hin).2, fun m hm heq => ?_⟩
    obtain ⟨k, group', hget', hin'⟩ := h.cover m hm
    -- Nodes with equal leaf sets are in one group.
    have hk : k = c.1 := by
      rw [← Finset.coe_inj, ((h.sound k group' hget').2 m hin').2, (hsound c.2 hin).2, heq]
    subst hk
    rw [hget] at hget'
    cases hget'
    exact hleast m hin'
  · intro node hnode
    obtain ⟨leaves, group, hget, hin⟩ := h.cover node hnode
    obtain ⟨first, rest, rfl⟩ := List.exists_cons_of_ne_nil (h.sound leaves group hget).1
    exact ⟨(leaves, _), (hmem _).mpr ⟨_, hget, rfl⟩, ((h.sound leaves _ hget).2 node hin).2⟩

theorem overlapping_coe (left right : Finset Int) : Overlapping left right ↔ partialOverlap left right := by
  unfold Overlapping partialOverlap
  rw [← Finset.coe_inter, Finset.coe_nonempty, Finset.coe_subset, Finset.coe_subset]

theorem partialOverlap_symm {left right : Finset Int} (h : partialOverlap left right) : partialOverlap right left := by
  obtain ⟨hmeet, hnot⟩ := h
  rw [Finset.inter_comm] at hmeet
  exact ⟨hmeet, fun hor => hnot hor.symm⟩

theorem not_partialOverlap_self (left : Finset Int) : ¬ partialOverlap left left := fun h => h.2 (.inl subset_rfl)

theorem anyOverlap_iff (sets : List (Finset Int)) : anyOverlap sets = true ↔
    ∃ a ∈ sets, ∃ b ∈ sets, partialOverlap a b := by
  induction sets with
  | nil => simp [anyOverlap]
  | cons left rest ih =>
    rw [anyOverlap, Bool.or_eq_true, List.any_eq_true, ih]
    constructor
    · rintro (⟨b, hb, hover⟩ | ⟨a, ha, b, hb, hover⟩)
      · exact ⟨left, List.mem_cons_self, b, List.mem_cons_of_mem left hb, of_decide_eq_true hover⟩
      · exact ⟨a, List.mem_cons_of_mem left ha, b, List.mem_cons_of_mem left hb, hover⟩
    · rintro ⟨a, ha, b, hb, hover⟩
      cases List.mem_cons.mp ha with
      | inl hal =>
        cases List.mem_cons.mp hb with
        | inl hbl =>
          subst hal hbl
          exact absurd hover (not_partialOverlap_self _)
        | inr hb => exact .inl ⟨b, hb, decide_eq_true (hal ▸ hover)⟩
      | inr ha =>
        cases List.mem_cons.mp hb with
        | inl hbl => exact .inl ⟨a, ha, decide_eq_true (hbl ▸ partialOverlap_symm hover)⟩
        | inr hb => exact .inr ⟨a, ha, b, hb, hover⟩

/-! ## The result -/

/-- The choice of an id, said without any order of the candidates. -/
def Selected (nodes : List CoverageNode) (leaves : Int → Set Int) (nodeId : Int) : Prop :=
  ∃ node ∈ nodes, node.nodeId = nodeId ∧ (∀ m ∈ nodes, ¬ leaves node.nodeId ⊂ leaves m.nodeId) ∧
    ∀ m ∈ nodes, leaves m.nodeId = leaves node.nodeId → ¬ keyLt m node

theorem Chosen.mem_selectedIds (h : Chosen lineage nodes chosen) (nodeId : Int) :
    nodeId ∈ selectedIds chosen ↔ Selected nodes (terminals (sourceIds lineage)) nodeId := by
  have hmem : nodeId ∈ selectedIds chosen ↔ ∃ c ∈ chosen, c.2.nodeId = nodeId ∧ ∀ d ∈ chosen, ¬ c.1 ⊂ d.1 := by
    simp only [selectedIds, List.mem_map, List.mem_filter, List.any_eq_true, decide_eq_true_eq, not_exists, not_and,
      Prod.exists, Prod.forall, forall_exists_index, and_imp]
    constructor
    · rintro ⟨leaves, node, ⟨hc, hmax⟩, heq⟩
      exact ⟨leaves, node, hc, heq, fun k d hd => hmax k k d hd rfl⟩
    · rintro ⟨leaves, node, hc, heq, hmax⟩
      refine ⟨leaves, node, ⟨hc, fun k k' d hd hk => ?_⟩, heq⟩
      exact hk ▸ hmax k' d hd
  rw [hmem]
  constructor
  · rintro ⟨c, hc, rfl, hmax⟩
    obtain ⟨hin, hexact, hleast⟩ := h.sound c hc
    refine ⟨c.2, hin, rfl, fun m hm hlt => ?_, hleast⟩
    obtain ⟨d, hd, hdm⟩ := h.cover m hm
    rw [← hexact, ← hdm, Finset.coe_ssubset] at hlt
    exact hmax d hd hlt
  · rintro ⟨node, hnode, rfl, hmax, hleast⟩
    obtain ⟨c, hc, hcn⟩ := h.cover node hnode
    obtain ⟨hin, hexact, hcleast⟩ := h.sound c hc
    have hsame := hexact.symm.trans hcn
    refine ⟨c, hc, keyLt_trichotomy (hleast c.2 hin hsame) (hcleast node hnode hsame.symm), fun d hd hlt => ?_⟩
    obtain ⟨hdin, hdexact, -⟩ := h.sound d hd
    rw [← Finset.coe_ssubset, hcn, hdexact] at hlt
    exact hmax d.2 hdin hlt

theorem Chosen.anyOverlap_iff (h : Chosen lineage nodes chosen) :
    anyOverlap (chosen.map Prod.fst) = true ↔
      ∃ left ∈ nodes, ∃ right ∈ nodes,
        Overlapping (terminals (sourceIds lineage) left.nodeId) (terminals (sourceIds lineage) right.nodeId) := by
  rw [RollupFrontier.anyOverlap_iff]
  constructor
  · rintro ⟨a, ha, b, hb, hover⟩
    obtain ⟨c, hc, rfl⟩ := List.mem_map.mp ha
    obtain ⟨d, hd, rfl⟩ := List.mem_map.mp hb
    obtain ⟨hcin, hcexact, -⟩ := h.sound c hc
    obtain ⟨hdin, hdexact, -⟩ := h.sound d hd
    rw [← overlapping_coe, hcexact, hdexact] at hover
    exact ⟨c.2, hcin, d.2, hdin, hover⟩
  · rintro ⟨left, hleft, right, hright, hover⟩
    obtain ⟨c, hc, hcl⟩ := h.cover left hleft
    obtain ⟨d, hd, hdr⟩ := h.cover right hright
    rw [← hcl, ← hdr, overlapping_coe] at hover
    exact ⟨c.1, List.mem_map_of_mem hc, d.1, List.mem_map_of_mem hd, hover⟩

/-- How a run of the frontier ends. -/
def Outcome (nodes : List CoverageNode) (sourceLineage : SourceLineage) :
    Except FrontierFailure (List CoverageNode) → Prop
  | .ok frontier =>
    ¬ CycleReached nodes sourceLineage ∧ ¬ OverlapMet nodes sourceLineage ∧ frontier.Sublist nodes ∧
      ∀ node, node ∈ frontier ↔ node ∈ nodes ∧ Selected nodes (leafSet nodes sourceLineage) node.nodeId
  | .error (.overlapError _) => CycleReached nodes sourceLineage ∨ OverlapMet nodes sourceLineage
  | .error .recursionLimit => False

/-- Frames for a walk that nests through every node that has sources. -/
def enoughFrames (nodes : List CoverageNode) (sourceLineage : SourceLineage) : Nat :=
  (lineageOf nodes sourceLineage).rows.length + 1

theorem canonicalFrontier_outcome (nodes : List CoverageNode) (sourceLineage : SourceLineage) (frames : Nat)
    (hframes : enoughFrames nodes sourceLineage ≤ frames) :
    Outcome nodes sourceLineage (canonicalFrontier frames nodes sourceLineage) := by
  have hgroups := @groups_spec (lineageOf nodes sourceLineage) frames hframes nodes [] .empty .empty (grouped_empty _)
    (memoSound_empty _)
  unfold canonicalFrontier
  rw [List.nil_append] at hgroups
  cases hfound : nodes.foldlM (groupNode (lineageOf nodes sourceLineage) frames) (.empty, .empty) with
  | error e =>
    rw [hfound] at hgroups
    cases e with
    | overlapError message => exact .inl hgroups
    | recursionLimit => exact hgroups
  | ok found =>
    obtain ⟨groups, memo⟩ := found
    rw [hfound] at hgroups
    have hchosen := chosen_representatives hgroups
    have hoverlap := hchosen.anyOverlap_iff
    rw [bind_of_ok rfl]
    dsimp only
    by_cases hany : anyOverlap ((representatives groups).map Prod.fst) = true
    · rw [if_pos hany]
      exact .inr (hoverlap.mp hany)
    · rw [if_neg hany]
      refine ⟨?_, fun h => hany (hoverlap.mpr h), List.filter_sublist, fun node => ?_⟩
      · rintro ⟨node, hnode, hcycle⟩
        exact hgroups.acyclic node hnode hcycle
      · rw [List.mem_filter, decide_eq_true_eq, hchosen.mem_selectedIds]
        exact Iff.rfl

/-- What the frontier is for. -/
structure Canonical (nodes : List CoverageNode) (leaves : Int → Set Int) (frontier : List CoverageNode) : Prop where
  listed : frontier.Sublist nodes
  disjoint : ∀ a ∈ frontier, ∀ b ∈ frontier, a.nodeId ≠ b.nodeId → Disjoint (leaves a.nodeId) (leaves b.nodeId)
  covering : (⋃ node ∈ frontier, leaves node.nodeId) = ⋃ node ∈ nodes, leaves node.nodeId
  maximal : ∀ a ∈ frontier, ∀ b ∈ nodes, ¬ leaves a.nodeId ⊂ leaves b.nodeId

variable {leaves : Int → Set Int}

/-- Some selected node has a leaf set around that of any candidate. -/
theorem exists_selected (leaves : Int → Set Int) {node : CoverageNode} (hnode : node ∈ nodes) :
    ∃ m ∈ nodes, Selected nodes leaves m.nodeId ∧ leaves node.nodeId ⊆ leaves m.nodeId := by
  classical
  have hfinite : {s | ∃ m ∈ nodes, leaves m.nodeId = s}.Finite :=
    (nodes.finite_toSet.image fun m => leaves m.nodeId).subset fun s ⟨m, hm, heq⟩ => ⟨m, hm, heq⟩
  obtain ⟨s, hle, ⟨m, hm, rfl⟩, hmax⟩ := hfinite.exists_le_maximal ⟨node, hnode, rfl⟩
  -- Among the candidates with this leaf set the least represents them.
  have hin : m ∈ nodes.filter fun n => leaves n.nodeId = leaves m.nodeId := List.mem_filter.mpr ⟨hm, by simp⟩
  obtain ⟨first, rest, hgroup⟩ := List.exists_cons_of_ne_nil (List.ne_nil_of_mem hin)
  obtain ⟨hrep, hleast⟩ := foldl_least rest first
  rw [← hgroup] at hrep hleast
  obtain ⟨hrepin, hrepeq⟩ := List.mem_filter.mp hrep
  have hrepeq := of_decide_eq_true hrepeq
  refine ⟨_, hrepin, ⟨_, hrepin, rfl, fun n hn hlt => ?_, fun n hn heq => ?_⟩, ?_⟩
  · rw [hrepeq] at hlt
    exact hlt.2 (hmax ⟨n, hn, rfl⟩ hlt.1)
  · exact hleast n (List.mem_filter.mpr ⟨hn, decide_eq_true (heq.trans hrepeq)⟩)
  · rw [hrepeq]
    exact hle

/-- A frontier of the selected nodes is canonical where none overlap. -/
theorem canonical_of_selected {frontier : List CoverageNode} (hsub : frontier.Sublist nodes)
    (hnone : ¬ ∃ left ∈ nodes, ∃ right ∈ nodes, Overlapping (leaves left.nodeId) (leaves right.nodeId))
    (hmem : ∀ node, node ∈ frontier ↔ node ∈ nodes ∧ Selected nodes leaves node.nodeId) :
      Canonical nodes leaves frontier := by
  constructor
  · exact hsub
  · intro a ha b hb hne
    obtain ⟨-, m, hm, hma, hmmax, hmleast⟩ := (hmem a).mp ha
    obtain ⟨-, n, hn, hnb, hnmax, hnleast⟩ := (hmem b).mp hb
    rw [← hma, ← hnb] at hne ⊢
    rw [Set.disjoint_iff_inter_eq_empty]
    by_contra hmeet
    -- Sets that meet contain one another, and neither is contained properly.
    have hsame : leaves m.nodeId = leaves n.nodeId := by
      by_contra hdiff
      refine hnone ⟨m, hm, n, hn, Set.nonempty_iff_ne_empty.mpr hmeet, ?_⟩
      rintro (hle | hge)
      · exact hmmax n hn (hle.ssubset_of_ne hdiff)
      · exact hnmax m hm (hge.ssubset_of_ne (Ne.symm hdiff))
    exact hne (keyLt_trichotomy (hnleast m hm hsame) (hmleast n hn hsame.symm))
  · apply Set.Subset.antisymm
    · intro l hl
      rw [Set.mem_iUnion₂] at hl ⊢
      obtain ⟨node, hnode, hin⟩ := hl
      exact ⟨node, ((hmem node).mp hnode).1, hin⟩
    · intro l hl
      rw [Set.mem_iUnion₂] at hl ⊢
      obtain ⟨node, hnode, hin⟩ := hl
      obtain ⟨m, hm, hselected, hle⟩ := exists_selected leaves hnode
      exact ⟨m, (hmem m).mpr ⟨hm, hselected⟩, hle hin⟩
  · intro a ha b hb
    obtain ⟨-, m, -, hma, hmax, -⟩ := (hmem a).mp ha
    exact hma ▸ hmax b hb

/-! ## The order of the input -/

/-- The entries in another order, and the sources of each in another order. -/
def Reordered (L L' : SourceLineage) : Prop :=
  ∃ M : SourceLineage, L.rows.Perm M.rows ∧ ∀ id, Option.Rel List.Perm (M.get id) (L'.get id)

/-- Candidates of one id that the map does not list have the same sources. -/
def SourcesAgree (nodes : List CoverageNode) (sourceLineage : SourceLineage) : Prop :=
  ∀ a ∈ nodes, ∀ b ∈ nodes, a.nodeId = b.nodeId → sourceLineage.get a.nodeId = none → a.sourceNodeIds = b.sourceNodeIds

theorem get_of_perm {L M : SourceLineage} (h : L.rows.Perm M.rows) (id : Int) : L.get id = M.get id := by
  cases hget : M.get id with
  | none =>
    rw [KeyedTable.get_eq_none] at hget ⊢
    exact fun hin => hget ((h.map Prod.fst).mem_iff.mp hin)
  | some sources => exact KeyedTable.get_eq_some.mpr (h.mem_iff.mpr (KeyedTable.get_eq_some.mp hget))

theorem get_lineageOf (nodes : List CoverageNode) (id : Int) : ∀ sourceLineage : SourceLineage,
    (lineageOf nodes sourceLineage).get id =
      (sourceLineage.get id).or ((nodes.find? fun node => node.nodeId = id).map CoverageNode.sourceNodeIds) := by
  induction nodes with
  | nil =>
    intro sourceLineage
    simp [lineageOf]
  | cons node nodes ih =>
    intro sourceLineage
    have hstep : lineageOf (node :: nodes) sourceLineage = lineageOf nodes
        (sourceLineage.insert node.nodeId node.sourceNodeIds) := rfl
    rw [hstep, ih, KeyedTable.get_insert]
    by_cases hid : id = node.nodeId
    · subst hid
      cases hget : sourceLineage.get node.nodeId <;> simp
    · rw [if_neg fun h => hid h.1, List.find?_cons_of_neg (by simpa using fun h => hid h.symm)]

/-- The sources of a node do not depend on the order of the entries. -/
theorem sourceIds_reordered {nodes nodes' : List CoverageNode} {L L' : SourceLineage} (hnodes : nodes.Perm nodes')
    (hlineage : Reordered L L') (hagree : nodes = nodes' ∨ SourcesAgree nodes L) (id x : Int) :
    x ∈ sourceIds (lineageOf nodes L) id ↔ x ∈ sourceIds (lineageOf nodes' L') id := by
  obtain ⟨M, hperm, hrel⟩ := hlineage
  have hid := hrel id
  rw [← get_of_perm hperm id] at hid
  unfold sourceIds
  rw [get_lineageOf, get_lineageOf]
  cases hget : L.get id with
  | some sources =>
    rw [hget] at hid
    cases hget' : L'.get id with
    | none =>
      rw [hget'] at hid
      cases hid
    | some sources' =>
      rw [hget'] at hid
      cases hid with
      | some hsources => exact hsources.mem_iff
  | none =>
    rw [hget] at hid
    cases hget' : L'.get id with
    | some sources' =>
      rw [hget'] at hid
      cases hid
    | none =>
      rw [Option.none_or, Option.none_or]
      obtain rfl | hagree := hagree
      · rfl
      cases hfind : nodes.find? fun node => node.nodeId = id with
      | none =>
        have hnone : nodes'.find? (fun node => node.nodeId = id) = none := by
          rw [List.find?_eq_none] at hfind ⊢
          exact fun node hnode => hfind node (hnodes.mem_iff.mpr hnode)
        rw [hnone]
      | some node =>
        cases hfind' : nodes'.find? fun node => node.nodeId = id with
        | none =>
          rw [List.find?_eq_none] at hfind'
          exact absurd (List.find?_some hfind) (hfind' node (hnodes.mem_iff.mp (List.mem_of_find?_eq_some hfind)))
        | some node' =>
          have heq : node.nodeId = id := by simpa using List.find?_some hfind
          have heq' : node'.nodeId = id := by simpa using List.find?_some hfind'
          have hin := List.mem_of_find?_eq_some hfind
          have hin' := hnodes.mem_iff.mpr (List.mem_of_find?_eq_some hfind')
          have hsame := hagree node hin node' hin' (heq.trans heq'.symm) (heq ▸ hget)
          rw [Option.map_some, Option.map_some, hsame]

theorem Selected.perm {nodes' : List CoverageNode} {leaves' : Int → Set Int} {nodeId : Int}
    (h : Selected nodes leaves nodeId)
    (hnodes : nodes.Perm nodes') (hleaves : ∀ id, leaves id = leaves' id) : Selected nodes' leaves' nodeId := by
  obtain ⟨node, hnode, heq, hmax, hleast⟩ := h
  obtain rfl : leaves = leaves' := by
    funext id
    exact hleaves id
  exact ⟨node, hnodes.mem_iff.mp hnode, heq, fun m hm => hmax m (hnodes.mem_iff.mpr hm),
    fun m hm => hleast m (hnodes.mem_iff.mpr hm)⟩

/-- The frontier fails on a cycle or an overlap only. Else it is canonical. The order of the lineage
is immaterial, and so is that of nodes whose sources agree where their ids do. -/
theorem canonicalFrontier_canonical (nodes : List CoverageNode) (sourceLineage : SourceLineage) :
    (∀ frames, enoughFrames nodes sourceLineage ≤ frames →
      ((∃ message, canonicalFrontier frames nodes sourceLineage = .error (.overlapError message)) ↔
        CycleReached nodes sourceLineage ∨ OverlapMet nodes sourceLineage) ∧
      (¬ (CycleReached nodes sourceLineage ∨ OverlapMet nodes sourceLineage) →
        ∃ frontier, canonicalFrontier frames nodes sourceLineage = .ok frontier ∧
          Canonical nodes (leafSet nodes sourceLineage) frontier)) ∧
    ∀ nodes' sourceLineage', nodes.Perm nodes' → Reordered sourceLineage sourceLineage' →
      (nodes = nodes' ∨ SourcesAgree nodes sourceLineage) →
      ∀ frames frames', enoughFrames nodes sourceLineage ≤ frames → enoughFrames nodes' sourceLineage' ≤ frames' →
        ∀ frontier, canonicalFrontier frames nodes sourceLineage = .ok frontier →
          ∃ frontier', canonicalFrontier frames' nodes' sourceLineage' = .ok frontier' ∧
            ∀ id, id ∈ frontier.map CoverageNode.nodeId ↔ id ∈ frontier'.map CoverageNode.nodeId := by
  constructor
  · intro frames hframes
    have houtcome := canonicalFrontier_outcome nodes sourceLineage frames hframes
    cases hrun : canonicalFrontier frames nodes sourceLineage with
    | ok frontier =>
      rw [hrun] at houtcome
      obtain ⟨hcycle, hoverlap, hsub, hmem⟩ := houtcome
      constructor
      · constructor
        · rintro ⟨message, heq⟩
          cases heq
        · rintro (h | h)
          · exact absurd h hcycle
          · exact absurd h hoverlap
      · intro _
        exact ⟨frontier, rfl, canonical_of_selected hsub hoverlap hmem⟩
    | error e =>
      rw [hrun] at houtcome
      cases e with
      | overlapError message => exact ⟨⟨fun _ => houtcome, fun _ => ⟨message, rfl⟩⟩, fun hnot => absurd houtcome hnot⟩
      | recursionLimit => exact houtcome.elim
  · intro nodes' sourceLineage' hnodes hlineage hagree frames frames' hframes hframes' frontier hrun
    have hsources := sourceIds_reordered hnodes hlineage hagree
    have hleaves : ∀ id, leafSet nodes sourceLineage id = leafSet nodes' sourceLineage' id := terminals_congr hsources
    have houtcome := canonicalFrontier_outcome nodes sourceLineage frames hframes
    rw [hrun] at houtcome
    obtain ⟨hcycle, hoverlap, -, hmem⟩ := houtcome
    have houtcome' := canonicalFrontier_outcome nodes' sourceLineage' frames' hframes'
    cases hrun' : canonicalFrontier frames' nodes' sourceLineage' with
    | error e =>
      rw [hrun'] at houtcome'
      cases e with
      | recursionLimit => exact houtcome'.elim
      | overlapError message =>
        cases houtcome' with
        | inl h =>
          obtain ⟨node, hnode, hbelow⟩ := h
          exact absurd ⟨node, hnodes.mem_iff.mpr hnode, (cycleBelow_congr hsources _).mpr hbelow⟩ hcycle
        | inr h =>
          obtain ⟨left, hleft, right, hright, hover⟩ := h
          rw [← hleaves, ← hleaves] at hover
          exact absurd ⟨left, hnodes.mem_iff.mpr hleft, right, hnodes.mem_iff.mpr hright, hover⟩ hoverlap
    | ok frontier' =>
      rw [hrun'] at houtcome'
      obtain ⟨-, -, -, hmem'⟩ := houtcome'
      refine ⟨frontier', rfl, fun id => ?_⟩
      rw [List.mem_map, List.mem_map]
      constructor
      · rintro ⟨node, hnode, rfl⟩
        obtain ⟨hin, hselected⟩ := (hmem node).mp hnode
        exact ⟨node, (hmem' node).mpr ⟨hnodes.mem_iff.mp hin, hselected.perm hnodes hleaves⟩, rfl⟩
      · rintro ⟨node, hnode, rfl⟩
        obtain ⟨hin, hselected⟩ := (hmem' node).mp hnode
        exact ⟨node, (hmem node).mpr
          ⟨hnodes.mem_iff.mpr hin, hselected.perm hnodes.symm fun id => (hleaves id).symm⟩, rfl⟩

/-- A parent and its child, with an unrelated leaf: the parent and the leaf remain, in any order. -/
def familyNodes : List CoverageNode := [⟨1, 0, []⟩, ⟨2, 1, [1]⟩, ⟨3, 0, []⟩]

theorem canonicalFrontier_canonical_family :
    ∃ frontier, canonicalFrontier 4 familyNodes.reverse .empty = .ok frontier ∧
      ∀ id, id ∈ [2, 3] ↔ id ∈ frontier.map CoverageNode.nodeId := by
  obtain ⟨frontier, hrun, hsame⟩ := (canonicalFrontier_canonical familyNodes .empty).2 familyNodes.reverse .empty
    (List.reverse_perm _).symm ⟨.empty, .refl _, fun _ => .none⟩
      (.inr (by unfold SourcesAgree; decide)) 4 4 (by decide) (by decide)
    [⟨2, 1, [1]⟩, ⟨3, 0, []⟩] (by decide)
  exact ⟨frontier, hrun, hsame⟩

/-- Two candidates of one id with different sources. -/
def doubledNodes : List CoverageNode := [⟨1, 0, [10]⟩, ⟨1, 0, [11]⟩, ⟨2, 0, [10]⟩]

def doubledNodes' : List CoverageNode := [⟨1, 0, [11]⟩, ⟨1, 0, [10]⟩, ⟨2, 0, [10]⟩]

/-- The first of them decides, so the choice depends on the order, and both are returned with one leaf set. -/
theorem doubled_order : doubledNodes.Perm doubledNodes' ∧
    (canonicalFrontier 4 doubledNodes .empty).toOption.map (List.map CoverageNode.nodeId) = some [1, 1] ∧
    (canonicalFrontier 4 doubledNodes' .empty).toOption.map (List.map CoverageNode.nodeId) = some [1, 1, 2] :=
  ⟨.swap _ _ _, by decide, by decide⟩

end RollupFrontier
