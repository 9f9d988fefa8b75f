import LcmX.LeafPrepWorker

/-!
# Chains of prepared leaves

What one leaf covers, stated about the rows of its session: a run of them from its start
frontier to the end of a unit, after the system prompts that it excludes. A chain that the
cache gives out covers its rows in one run.
-/
namespace LeafPrep

/-! ## Sorted rows -/

abbrev Sorted (rows : List Row) : Prop := (rows.map Row.storeId).Pairwise (· < ·)

theorem own_sorted (db : Database) (session conversation : String) : Sorted (db.own session conversation) :=
  db.sorted.sublist (List.filter_sublist.map _)

theorem Sorted.of_append {u v : List Row} (h : Sorted (u ++ v)) : Sorted u ∧ Sorted v ∧ ∀ r ∈ u,
    ∀ r' ∈ v, r.storeId < r'.storeId := by
  rw [Sorted, List.map_append, List.pairwise_append] at h
  exact ⟨h.1, h.2.1, fun r hr r' hr' => h.2.2 _ (List.mem_map_of_mem hr) _ (List.mem_map_of_mem hr')⟩

/-- The rows up to `c` are those up to `b` and those behind it. -/
theorem Sorted.filter_split {rows : List Row} (h : Sorted rows) {a b c : Int} (hab : a ≤ b) (hbc : b ≤ c) :
    (rows.filter fun row => a < row.storeId ∧ row.storeId ≤ c) =
      (rows.filter fun row => a < row.storeId ∧ row.storeId ≤ b) ++ rows.filter fun row => b <
      row.storeId ∧ row.storeId ≤ c := by
  induction rows with
  | nil => rfl
  | cons row rows ih =>
    obtain ⟨-, hrest, hless⟩ := Sorted.of_append (u := [row]) h
    have ih := ih hrest
    by_cases hlow : row.storeId ≤ b
    · have hnot : ¬ (b < row.storeId ∧ row.storeId ≤ c) := by omega
      by_cases ha : a < row.storeId
      · have hc : row.storeId ≤ c := by omega
        simpa [hnot, ha, hlow, hc] using ih
      · simpa [hnot, ha] using ih
    · have hnone : ∀ r ∈ row :: rows, ¬ (a < r.storeId ∧ r.storeId ≤ b) := by
        intro r hr
        rcases List.mem_cons.mp hr with rfl | hr
        · omega
        · have := hless row (List.mem_singleton_self _) r hr
          omega
      have hempty : ((row :: rows).filter fun r => a < r.storeId ∧ r.storeId ≤ b) = [] := by
        simpa using hnone
      have hsame : ((row :: rows).filter fun r => a < r.storeId ∧ r.storeId ≤ c) =
          (row :: rows).filter fun r => b < r.storeId ∧ r.storeId ≤ c := by
        refine List.filter_congr fun r hr => ?_
        have hb : b < r.storeId := by
          rcases List.mem_cons.mp hr with rfl | hr
          · omega
          · have := hless row (List.mem_singleton_self _) r hr
            omega
        have ha : a < r.storeId := by omega
        simp [ha, hb]
      rw [hempty, hsame, List.nil_append]

theorem foldl_max_last {ids : List Int} {a last : Int} (h : ∀ id ∈ ids, id < last) (ha : a < last) :
    (ids ++ [last]).foldl max a = last := by
  have hle : ∀ (ids : List Int) (a : Int), (∀ id ∈ ids, id < last) → a < last → ids.foldl max a < last := by
    intro ids
    induction ids with
    | nil => exact fun a _ ha => ha
    | cons id ids ih =>
      intro a h ha
      exact ih (max a id) (fun id' hid' => h id' (List.mem_cons_of_mem _ hid')) (max_lt ha (h id List.mem_cons_self))
  rw [List.foldl_append]
  exact max_eq_right (hle ids a h ha).le

/-! ## What a leaf covers -/

/-- The rows are cut at the start frontier, behind the anchors, and at the end of a unit. -/
def Cuts (own : List Row) (leaf : PreparedLeaf) : Prop :=
  ∃ before anchors covered last next after, own = before ++ (anchors ++ (covered ++ (last :: next :: after))) ∧
    (∀ r ∈ before, r.storeId ≤ leaf.startFrontier) ∧
      (∀ r ∈ anchors ++ (covered ++ [last]), leaf.startFrontier < r.storeId) ∧
    leaf.excludedStoreIds = anchors.map Row.storeId ∧ (∀ r ∈ anchors, r.role = "system") ∧
    leaf.coveredStoreIds = (covered ++ [last]).map Row.storeId ∧ hostUnitBoundary (some last) (some next) = true

/-- The last covered row and the one behind it. -/
def EndsUnit (own : List Row) (leaf : PreparedLeaf) : Prop :=
  ∃ before last next after, own = before ++ last :: next :: after ∧ last.storeId = leaf.coveredEnd ∧
    hostUnitBoundary (some last) (some next) = true

section

variable {own : List Row} {leaf : PreparedLeaf}

theorem Cuts.append (h : Cuts own leaf) (new : List Row) : Cuts (own ++ new) leaf := by
  obtain ⟨before, anchors, covered, last, next, after, rfl, hrest⟩ := h
  exact ⟨before, anchors, covered, last, next, after ++ new, by simp, hrest⟩

theorem Cuts.coveredEnd (h : Cuts own leaf) (hs : Sorted own) :
    ∃ ids last, leaf.coveredStoreIds = ids ++ [last] ∧ leaf.coveredEnd = last ∧
    leaf.startFrontier < last ∧ ∃ r ∈ own, r.storeId = last := by
  obtain ⟨before, anchors, covered, last, next, after, rfl, -, habove, -, -, hcovered, -⟩ := h
  have hless := hs.of_append.2.1.of_append.2.1.of_append.2.2
  have hlast : leaf.startFrontier < last.storeId := habove last (by simp)
  refine ⟨covered.map Row.storeId, last.storeId,
    by rw [hcovered, List.map_append, List.map_singleton], ?_, hlast, last, by simp, rfl⟩
  rw [PreparedLeaf.coveredEnd, hcovered, List.map_append, List.map_singleton]
  refine foldl_max_last (fun id hid => ?_) hlast
  obtain ⟨r, hr, rfl⟩ := List.mem_map.mp hid
  exact hless r hr last List.mem_cons_self

theorem Cuts.advances (h : Cuts own leaf) (hs : Sorted own) : leaf.startFrontier < leaf.coveredEnd := by
  obtain ⟨ids, last, -, hend, hlast, -⟩ := h.coveredEnd hs
  rw [hend]
  exact hlast

theorem Cuts.endsUnit (h : Cuts own leaf) (hs : Sorted own) : EndsUnit own leaf := by
  obtain ⟨ids, id, hids, hend, -⟩ := h.coveredEnd hs
  obtain ⟨before, anchors, covered, last, next, after, rfl, -, -, -, -, hcovered, hunit⟩ := h
  refine ⟨before ++ (anchors ++ covered), last, next, after, by simp, ?_, hunit⟩
  rw [hcovered, List.map_append, List.map_singleton] at hids
  rw [hend]
  exact List.singleton_inj.mp (List.append_inj_right' hids rfl)

/-- The rows between the frontier and the end of a leaf are the excluded ones and the covered ones. -/
theorem Cuts.range (h : Cuts own leaf) (hs : Sorted own) :
    (own.filter fun row => leaf.startFrontier < row.storeId ∧ row.storeId ≤ leaf.coveredEnd).map Row.storeId =
      leaf.excludedStoreIds ++ leaf.coveredStoreIds := by
  obtain ⟨ids, id, hids, hend, -⟩ := h.coveredEnd hs
  obtain ⟨before, anchors, covered, last, next, after, rfl, hbefore, habove, hexcluded, -, hcovered, -⟩ := h
  have hid : last.storeId = id := by
    rw [hcovered, List.map_append, List.map_singleton] at hids
    exact List.singleton_inj.mp (List.append_inj_right' hids rfl)
  have hsplit : before ++ (anchors ++ (covered ++ (last :: next :: after))) = before ++
      ((anchors ++ (covered ++ [last])) ++ (next :: after)) := by
    simp
  rw [hsplit] at hs ⊢
  obtain ⟨hsorted, -, hless⟩ := hs.of_append.2.1.of_append
  have hup : ∀ r ∈ anchors ++ (covered ++ [last]), r.storeId ≤ last.storeId := by
    intro r hr
    rw [← List.append_assoc] at hr hsorted
    rcases List.mem_append.mp hr with hr | hr
    · exact (hsorted.of_append.2.2 r hr last (List.mem_singleton_self _)).le
    · rw [List.mem_singleton.mp hr]
  have hfirst : (before.filter fun row => leaf.startFrontier < row.storeId ∧ row.storeId ≤ id) = [] := by
    simp only [List.filter_eq_nil_iff, decide_eq_true_eq]
    exact fun r hr => fun h => absurd (hbefore r hr) (by omega)
  have hmiddle : ((anchors ++ (covered ++ [last])).filter fun row =>
      leaf.startFrontier < row.storeId ∧ row.storeId ≤ id) = anchors ++ (covered ++ [last]) := by
    simp only [List.filter_eq_self, decide_eq_true_eq]
    exact fun r hr => ⟨habove r hr, hid ▸ hup r hr⟩
  have hlast : ((next :: after).filter fun row => leaf.startFrontier < row.storeId ∧ row.storeId ≤ id) = [] := by
    simp only [List.filter_eq_nil_iff, decide_eq_true_eq]
    intro r hr h
    have := hless last (by simp) r hr
    omega
  rw [hend, List.filter_append, List.filter_append, hfirst, hmiddle, hlast, hexcluded, hcovered]
  simp

end

/-! ## Chains -/

def Linked : Int → List PreparedLeaf → Prop
  | _, [] => True
  | frontier, leaf :: chain => leaf.startFrontier = frontier ∧ Linked leaf.coveredEnd chain

/-- Where a chain that starts at the frontier ends. -/
def endOf (frontier : Int) (chain : List PreparedLeaf) : Int :=
  (chain.getLast?.map PreparedLeaf.coveredEnd).getD frontier

/-- The system prompts that the first leaf of a chain excludes. -/
def excludedBy (chain : List PreparedLeaf) : List Int := (chain.head?.map PreparedLeaf.excludedStoreIds).getD []

def coveredBy (chain : List PreparedLeaf) : List Int := chain.flatMap PreparedLeaf.coveredStoreIds

theorem endOf_cons (frontier : Int) (leaf : PreparedLeaf) (chain : List PreparedLeaf) :
    endOf frontier (leaf :: chain) = endOf leaf.coveredEnd chain := by
  cases chain with
  | nil => rfl
  | cons next chain => rfl

section

variable {frontier : Int} {chain : List PreparedLeaf} {own : List Row}

theorem Linked.le (h : Linked frontier chain) (hadvances : ∀ leaf ∈ chain, leaf.startFrontier < leaf.coveredEnd) :
    frontier ≤ endOf frontier chain ∧ ∀ leaf ∈ chain, frontier ≤ leaf.startFrontier := by
  induction chain generalizing frontier with
  | nil => exact ⟨le_refl _, by simp⟩
  | cons leaf chain ih =>
    obtain ⟨rfl, hrest⟩ := h
    obtain ⟨hend, hstart⟩ := ih hrest fun l hl => hadvances l (List.mem_cons_of_mem _ hl)
    have hleaf := hadvances leaf List.mem_cons_self
    refine ⟨by rw [endOf_cons]; omega, fun l hl => ?_⟩
    rcases List.mem_cons.mp hl with rfl | hl
    · exact le_refl _
    · have := hstart l hl
      omega

/-- Behind the first leaf of a chain all leaves start later. -/
theorem Linked.tail_lt (h : Linked frontier chain) (hadvances : ∀ leaf ∈ chain, leaf.startFrontier < leaf.coveredEnd) :
    ∀ leaf ∈ chain.tail, frontier < leaf.startFrontier := by
  cases chain with
  | nil => simp
  | cons leaf chain =>
    obtain ⟨rfl, hrest⟩ := h
    intro l hl
    have hstart := (hrest.le fun l hl => hadvances l (List.mem_cons_of_mem _ hl)).2 l hl
    have hleaf := hadvances leaf List.mem_cons_self
    omega

/-- A chain covers the rows from its frontier to its end, but for those that its first leaf excludes. -/
theorem Linked.range (h : Linked frontier chain) (hs : Sorted own) (hcuts : ∀ leaf ∈ chain, Cuts own leaf)
    (htail : ∀ leaf ∈ chain.tail, leaf.excludedStoreIds = []) :
    (own.filter fun row => frontier < row.storeId ∧ row.storeId ≤ endOf frontier chain).map
      Row.storeId = excludedBy chain ++ coveredBy chain := by
  induction chain generalizing frontier with
  | nil =>
    have hempty : (own.filter fun row => frontier < row.storeId ∧ row.storeId ≤ frontier) = [] := by
      simp only [List.filter_eq_nil_iff, decide_eq_true_eq]
      exact fun r _ => by omega
    exact congrArg (List.map Row.storeId) hempty
  | cons leaf chain ih =>
    obtain ⟨rfl, hrest⟩ := h
    have hcut := hcuts leaf List.mem_cons_self
    have hcuts' := fun l hl => hcuts l (List.mem_cons_of_mem _ hl)
    have hend := (hrest.le fun l hl => (hcuts' l hl).advances hs).1
    have hnone : excludedBy chain = [] := by
      cases chain with
      | nil => rfl
      | cons next chain => exact htail next List.mem_cons_self
    have ih := ih hrest hcuts' fun l hl => htail l (List.mem_of_mem_tail hl)
    rw [endOf_cons, hs.filter_split (hcut.advances hs).le hend, List.map_append, hcut.range hs, ih,
      hnone, List.nil_append, List.append_assoc]
    rfl

end

/-! ## The loop of `ready_chain` -/

namespace Prep

variable {leaves chain : List PreparedLeaf} {cursor : Int}

theorem byStart_spec {leaf : PreparedLeaf} (h : byStart leaves cursor = some leaf) :
    leaf ∈ leaves ∧ leaf.startFrontier = cursor := by
  have hmem := List.mem_of_getLast? h
  rw [List.mem_filter, decide_eq_true_eq] at hmem
  exact hmem

/-- A walk that ends is a chain of the leaves it was given. -/
theorem walk_spec {fuel : Nat} (h : walk leaves fuel cursor = some chain) : Linked cursor chain ∧
    ∀ leaf ∈ chain, leaf ∈ leaves := by
  induction fuel generalizing cursor chain with
  | zero => cases h
  | succ fuel ih =>
    rw [walk] at h
    cases hstart : byStart leaves cursor with
    | none =>
      rw [hstart] at h
      cases h
      exact ⟨trivial, by simp⟩
    | some leaf =>
      rw [hstart] at h
      obtain ⟨rest, hrest, rfl⟩ := Option.map_eq_some_iff.mp h
      obtain ⟨hlinked, hmem⟩ := ih hrest
      obtain ⟨hleaf, hcursor⟩ := byStart_spec hstart
      refine ⟨⟨hcursor, hlinked⟩, fun l hl => ?_⟩
      rcases List.mem_cons.mp hl with rfl | hl
      · exact hleaf
      · exact hmem l hl

/-- The loop ends when every leaf ends behind its start: each round leaves a leaf behind. -/
theorem walk_total (hadvances : ∀ leaf ∈ leaves, leaf.startFrontier < leaf.coveredEnd) {fuel : Nat}
    (h : (leaves.filter fun leaf => cursor ≤ leaf.startFrontier).length < fuel) :
      ∃ chain, walk leaves fuel cursor = some chain := by
  induction fuel generalizing cursor with
  | zero => omega
  | succ fuel ih =>
    cases hstart : byStart leaves cursor with
    | none => exact ⟨[], by rw [walk, hstart]⟩
    | some leaf =>
      obtain ⟨hleaf, rfl⟩ := byStart_spec hstart
      have hend := hadvances leaf hleaf
      have hless : (leaves.filter fun l => leaf.coveredEnd ≤ l.startFrontier).length <
          (leaves.filter fun l => leaf.startFrontier ≤ l.startFrontier).length := by
        have hsub : (leaves.filter fun l => leaf.coveredEnd ≤ l.startFrontier) =
            (leaves.filter fun l => leaf.startFrontier ≤ l.startFrontier).filter
              fun l => leaf.coveredEnd ≤ l.startFrontier := by
          rw [List.filter_filter]
          refine List.filter_congr fun l _ => ?_
          by_cases hl : leaf.coveredEnd ≤ l.startFrontier
          · have : leaf.startFrontier ≤ l.startFrontier := by omega
            simp [hl, this]
          · simp [hl]
        rw [hsub]
        refine List.length_filter_lt_length_iff_exists.mpr ⟨leaf, List.mem_filter.mpr ⟨hleaf, by simp⟩, ?_⟩
        simp only [decide_eq_true_eq]
        omega
      obtain ⟨chain, hchain⟩ := @ih leaf.coveredEnd (by omega)
      exact ⟨leaf :: chain, by rw [walk, hstart]; simp only [hchain, Option.map_some]⟩

theorem walk_succ {fuel : Nat} (h : walk leaves fuel cursor = some chain) :
    walk leaves (fuel + 1) cursor = some chain := by
  induction fuel generalizing cursor chain with
  | zero => cases h
  | succ fuel ih =>
    rw [walk] at h ⊢
    cases hstart : byStart leaves cursor with
    | none =>
      rw [hstart] at h
      exact h
    | some leaf =>
      rw [hstart] at h
      obtain ⟨rest, hrest, rfl⟩ := Option.map_eq_some_iff.mp h
      simp only [ih hrest, Option.map_some]

theorem walk_mono {fuel more : Nat} (hle : fuel ≤ more) (h : walk leaves fuel cursor = some chain) :
    walk leaves more cursor = some chain := by
  induction more, hle using Nat.le_induction with
  | base => exact h
  | succ more _ ih => exact walk_succ ih

/-- With more rounds than leaves, `ready_chain` gives its chain. -/
theorem readyChain_total {σ : Type} (prep : Prep σ) (key : Key) (frontier : Int)
    (hadvances : ∀ leaf ∈ prep.cache.leaves key, leaf.startFrontier < leaf.coveredEnd) :
    ∃ chain prep', ∀ fuel, (prep.cache.leaves key).length < fuel →
      prep.readyChain fuel key frontier = some (chain, prep') := by
  by_cases hnone : prep.cache.leaves key = []
  · refine ⟨[], prep, fun fuel _ => ?_⟩
    unfold readyChain
    rw [if_pos hnone]
  · have hshort := List.length_filter_le
      (fun leaf : PreparedLeaf => decide (frontier ≤ leaf.startFrontier)) (prep.cache.leaves key)
    obtain ⟨chain, hchain⟩ := @walk_total _ frontier hadvances ((prep.cache.leaves key).length + 1) (by omega)
    have hsame : ∀ fuel, (prep.cache.leaves key).length < fuel →
        prep.readyChain fuel key frontier = prep.readyChain ((prep.cache.leaves key).length + 1) key frontier := by
      intro fuel hfuel
      unfold readyChain
      rw [if_neg hnone, if_neg hnone, walk_mono hfuel hchain, hchain]
    obtain ⟨r, hr⟩ : ∃ r, prep.readyChain ((prep.cache.leaves key).length + 1) key frontier = some r := by
      unfold readyChain
      rw [if_neg hnone, hchain]
      exact ⟨_, rfl⟩
    exact ⟨r.1, r.2, fun fuel hfuel => (hsame fuel hfuel).trans hr⟩

/-- The ready chain is linked, and made of cached leaves. -/
theorem readyChain_spec {σ : Type} {prep prep' : Prep σ} {fuel : Nat} {key : Key} {frontier : Int}
    (h : prep.readyChain fuel key frontier = some (chain, prep')) : Linked frontier chain ∧
      ∀ leaf ∈ chain, leaf ∈ prep.cache.leaves key := by
  unfold readyChain at h
  dsimp only at h
  split at h
  · cases h
    exact ⟨trivial, by simp⟩
  · obtain ⟨chain', hchain, he⟩ := Option.map_eq_some_iff.mp h
    cases he
    exact walk_spec hchain

end Prep

end LeafPrep
