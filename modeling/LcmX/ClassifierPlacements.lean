import LcmX.ClassifierOnce

/-!
# The planner accepts the placements

Every bound that a classification plans is an ordinal of the lineage, no gap is
crossed, and gaps do not go back in view order. So `plan_ordinals` can only run
out of ordinals.
-/
namespace Classifier

open IngestLedger Fallible

variable {c : Context} {existing : List Int}

/-- Bounds that exist and do not cross. -/
structure Gap (existing : List Int) (bounds : Option Int × Option Int) : Prop where
  left : ∀ l ∈ bounds.1, l ∈ existing
  right : ∀ r ∈ bounds.2, r ∈ existing
  opened : ∀ l ∈ bounds.1, ∀ r ∈ bounds.2, l < r

theorem ordinal_mem {t : Option Target} {o : Int} (h : c.ordinal t = some o) : o ∈ c.snapshot.ordinals := by
  unfold Context.ordinal at h
  split at h
  · rw [Option.bind_eq_some_iff] at h
    obtain ⟨b, hb, ho⟩ := h
    rw [Snapshot.ordinals, List.mem_insertionSort, List.mem_eraseDups, List.mem_filterMap]
    exact ⟨b, (Context.mem_of_binding? hb).1, ho⟩
  · cases h

theorem placed_mem {p : Pass} {q : Nat × Int} (h : q ∈ c.placed p) : q.2 ∈ c.snapshot.ordinals := by
  unfold Context.placed at h
  rw [List.mem_filterMap] at h
  obtain ⟨j, -, h⟩ := h
  split at h
  · rw [Option.map_eq_some_iff] at h
    obtain ⟨o, ho, rfl⟩ := h
    exact ordinal_mem ho
  · cases h

theorem bounds_mem (p : Pass) (i : Nat) (outside : List Nat) :
    (∀ l ∈ (c.bounds p i outside).1, l ∈ c.snapshot.ordinals) ∧ ∀ r ∈ (c.bounds p i outside).2,
      r ∈ c.snapshot.ordinals := by
  constructor
  · intro l hl
    obtain ⟨q, hq, rfl⟩ := Option.map_eq_some_iff.mp hl
    exact placed_mem (List.mem_of_mem_filter (List.mem_of_getLast? hq))
  · intro r hr
    obtain ⟨q, hq, rfl⟩ := Option.map_eq_some_iff.mp hr
    exact placed_mem (List.mem_of_mem_filter (List.mem_of_head? hq))

variable {bounds : Option Int × Option Int} {previous : Placement}

theorem gap_uncross (hleft : ∀ l ∈ bounds.1, l ∈ existing)
    (hright : ∀ r ∈ bounds.2, r ∈ existing) : Gap existing (Context.uncross bounds) := by
  obtain ⟨left, right⟩ := bounds
  cases left with
  | none => exact ⟨hleft, hright, nofun⟩
  | some l =>
    cases right with
    | none => exact ⟨hleft, hright, fun _ _ => nofun⟩
    | some r =>
      simp only [Context.uncross]
      split
      · next hcrossed =>
        rw [max_eq_left hcrossed]
        exact ⟨hleft, nofun, fun _ _ => nofun⟩
      · next hopen =>
        refine ⟨hleft, hright, ?_⟩
        intro l' hl' r' hr'
        cases hl'
        cases hr'
        omega

/-- The bounds as numbers: an absent left one is 0, an absent right one is past every ordinal. -/
theorem Gap.low_lt_high (h : Gap existing bounds)
    (hrange : ∀ v ∈ existing, 0 < v ∧ v ≤ maxOrdinal) : bounds.1.getD 0 < bounds.2.getD (maxOrdinal + 1) := by
  obtain ⟨left, right⟩ := bounds
  cases left with
  | none =>
    cases right with
    | none => exact Int.lt_add_one_of_le (by decide)
    | some r => exact (hrange r (h.right r rfl)).1
  | some l =>
    cases right with
    | none => exact Int.lt_add_one_of_le (hrange l (h.left l rfl)).2
    | some r => exact h.opened l rfl r rfl

theorem clamp_left (hleft : ∀ l ∈ bounds.1, 0 < l)
    (hleft' : ∀ l ∈ previous.left, 0 < l) {l : Int} (hl : (Context.clamp (some previous) bounds).1 = some l) :
    l = max (bounds.1.getD 0) (previous.left.getD 0) ∧ (bounds.1 = some l ∨ previous.left = some l) := by
  obtain ⟨left, right⟩ := bounds
  obtain ⟨left', right', supersedes⟩ := previous
  simp only [Context.clamp] at hl
  split at hl
  · cases hl
  · next hne =>
    cases hl
    refine ⟨rfl, ?_⟩
    -- The larger of two left bounds is one of them, and 0 stands for no bound.
    cases left with
    | none =>
      cases left' with
      | none => exact absurd rfl hne
      | some l' =>
        have hpos := hleft' l' rfl
        right
        simp [max_eq_right hpos.le]
    | some l =>
      cases left' with
      | none =>
        have hpos := hleft l rfl
        left
        simp [max_eq_left hpos.le]
      | some l' =>
        cases le_total l l' with
        | inl hle => exact .inr (by simp [hle])
        | inr hle => exact .inl (by simp [hle])

theorem clamp_right {r : Int}
    (hr : (Context.clamp (some previous) bounds).2 = some r) :
    ∃ r₁ r₂, bounds.2 = some r₁ ∧ previous.right = some r₂ ∧ r = max r₁ r₂ := by
  simp only [Context.clamp] at hr
  split at hr
  · next r₁ r₂ h₁ h₂ =>
    cases hr
    exact ⟨r₁, r₂, h₁, h₂, rfl⟩
  · cases hr

theorem clamp_low (previous : Placement) (bounds : Option Int × Option Int) :
    previous.low ≤ (Context.clamp (some previous) bounds).1.getD 0 := by
  simp only [Placement.low, Context.clamp]
  split
  · next hzero => exact (le_max_right _ _).trans hzero.le
  · exact le_max_right _ _

theorem clamp_high (hopen : ∀ r ∈ previous.right, r ≤ maxOrdinal)
    (bounds : Option Int × Option Int) :
    previous.high ≤ (Context.clamp (some previous) bounds).2.getD (maxOrdinal + 1) := by
  obtain ⟨left, right⟩ := bounds
  obtain ⟨left', right', supersedes⟩ := previous
  simp only [Placement.high, Context.clamp]
  cases right' with
  | none => cases right <;> exact le_rfl
  | some r' =>
    cases right with
    | none => exact Int.le_add_one (hopen r' rfl)
    | some r => exact le_max_right _ _

theorem Gap.clamp (h : Gap existing bounds)
    (hprevious : Gap existing (previous.left, previous.right)) (hrange : ∀ v ∈ existing, 0 < v ∧ v ≤ maxOrdinal) :
    Gap existing (Context.clamp (some previous) bounds) ∧
      previous.low ≤ (Context.clamp (some previous) bounds).1.getD 0 ∧
      previous.high ≤ (Context.clamp (some previous) bounds).2.getD (maxOrdinal + 1) := by
  have hleft {l : Int} (hl : (Context.clamp (some previous) bounds).1 = some l) :=
    clamp_left (fun l hl => (hrange l (h.left l hl)).1) (fun l hl => (hrange l (hprevious.left l hl)).1) hl
  refine ⟨⟨?_, ?_, ?_⟩, clamp_low previous bounds, clamp_high (fun r hr => (hrange r (hprevious.right r hr)).2) bounds⟩
  · intro l hl
    cases (hleft hl).2 with
    | inl hl => exact h.left l hl
    | inr hl => exact hprevious.left l hl
  · intro r hr
    obtain ⟨r₁, r₂, h₁, h₂, rfl⟩ := clamp_right hr
    cases le_total r₁ r₂ with
    | inl hle => rw [max_eq_right hle]; exact hprevious.right r₂ h₂
    | inr hle => rw [max_eq_left hle]; exact h.right r₁ h₁
  · intro l hl r hr
    obtain ⟨rfl, -⟩ := hleft hl
    obtain ⟨r₁, r₂, h₁, h₂, rfl⟩ := clamp_right hr
    have hlt₁ := h.low_lt_high hrange
    have hlt₂ := hprevious.low_lt_high hrange
    rw [h₁] at hlt₁
    dsimp only at hlt₂
    rw [h₂] at hlt₂
    exact max_lt (hlt₁.trans_le (le_max_left _ _)) (hlt₂.trans_le (le_max_right _ _))

/-- The gap of every placement so far. -/
def Gaps (existing : List Int) (placements : List Placement) : Prop :=
  Acceptable existing placements ∧ ∀ p ∈ placements, Gap existing (p.left, p.right)

/-- A gap that does not go back behind the last one extends an acceptable list. -/
theorem Gaps.append {placements : List Placement} (h : Gaps existing placements) {p : Placement}
    (hgap : Gap existing (p.left, p.right)) (hrange : ∀ v ∈ existing, 0 < v ∧ v ≤ maxOrdinal)
    (hsupersedes : ∀ v ∈ p.supersedes, v ∈ existing)
    (hlast : ∀ q ∈ placements.getLast?, q.low ≤ p.low ∧ q.high ≤ p.high) : Gaps existing (placements ++ [p]) := by
  have hevery : ∀ q ∈ placements, q.low ≤ p.low ∧ q.high ≤ p.high := by
    intro q hq
    cases placements using List.reverseRecOn with
    | nil => cases hq
    | append_singleton init last =>
      obtain ⟨hlow, hhigh⟩ := hlast last (by simp)
      cases List.mem_append.mp hq with
      | inl hin =>
        have hpair := (List.pairwise_append.mp h.1.order).2.2 q hin last (by simp)
        exact ⟨hpair.1.trans hlow, hpair.2.trans hhigh⟩
      | inr hin =>
        rw [List.mem_singleton.mp hin]
        exact ⟨hlow, hhigh⟩
  constructor
  · constructor
    · intro q hq v hv
      cases List.mem_append.mp hq with
      | inl hin => exact h.1.bounds q hin v hv
      | inr hin =>
        rw [List.mem_singleton.mp hin] at hv
        obtain hv | hv | hv := hv
        · exact hgap.left v hv
        · exact hgap.right v hv
        · exact hsupersedes v hv
    · intro q hq
      cases List.mem_append.mp hq with
      | inl hin => exact h.1.open_gap q hin
      | inr hin =>
        rw [List.mem_singleton.mp hin]
        exact hgap.low_lt_high hrange
    · rw [List.pairwise_append]
      refine ⟨h.1.order, List.pairwise_singleton _ _, ?_⟩
      intro q hq q' hq'
      rw [List.mem_singleton.mp hq']
      exact hevery q hq
  · intro q hq
    cases List.mem_append.mp hq with
    | inl hin => exact h.2 q hin
    | inr hin =>
      rw [List.mem_singleton.mp hin]
      exact hgap

/-- The placement of one more row keeps the gaps acceptable. -/
theorem gaps_placement {p : Pass} (hrange : ∀ v ∈ c.snapshot.ordinals, 0 < v ∧ v ≤ maxOrdinal)
    (h : Gaps c.snapshot.ordinals (p.plan.placements.map Prod.snd)) (row : IncomingRow) :
    Gaps c.snapshot.ordinals (p.plan.placements.map Prod.snd ++ [c.placement p row]) := by
  have huncrossed : Gap c.snapshot.ordinals (Context.uncross (c.bounds p row.index [])) :=
    gap_uncross (bounds_mem p row.index []).1 (bounds_mem p row.index []).2
  have hlast : p.plan.placements.getLast?.map Prod.snd = (p.plan.placements.map Prod.snd).getLast? := by
    rw [List.getLast?_map]
  have hsupersedes : ∀ v ∈ (c.placement p row).supersedes, v ∈ c.snapshot.ordinals := by
    intro v hv
    simp only [Context.placement, Option.mem_def, Option.join_eq_some_iff, Option.map_eq_some_iff] at hv
    obtain ⟨r, -, hr⟩ := hv
    exact ordinal_mem hr
  cases hplacements : (p.plan.placements.map Prod.snd).getLast? with
  | none =>
    have hbounds : ((c.placement p row).left, (c.placement p row).right) = Context.uncross
        (c.bounds p row.index []) := by
      simp only [Context.placement, hlast, hplacements, Context.clamp]
    refine h.append (hbounds ▸ huncrossed) hrange hsupersedes ?_
    intro q hq
    rw [hplacements] at hq
    cases hq
  | some previous =>
    have hprevious : Gap c.snapshot.ordinals (previous.left, previous.right) :=
      h.2 previous (List.mem_of_getLast? hplacements)
    obtain ⟨hgap, hlow, hhigh⟩ := huncrossed.clamp hprevious hrange
    have hbounds : ((c.placement p row).left, (c.placement p row).right) =
        Context.clamp (some previous) (Context.uncross (c.bounds p row.index [])) := by
      simp only [Context.placement, hlast, hplacements]
    rw [← hbounds] at hgap hlow hhigh
    refine h.append hgap hrange hsupersedes ?_
    intro q hq
    rw [hplacements] at hq
    cases hq
    exact ⟨hlow, hhigh⟩

/-- The rows that a pass leaves new, in view order. -/
def newRows (rows : Nat → RowVerdict) (view : List IncomingRow) : List Nat :=
  (view.filter fun row => (rows row.index).verdict = .new).map IncomingRow.index

theorem planRows_gaps (hrange : ∀ v ∈ c.snapshot.ordinals, 0 < v ∧ v ≤ maxOrdinal)
    (slots : List (Option Bytes × Option Target)) (rows : List IncomingRow) :
    ∀ s : Context.Planner, Gaps c.snapshot.ordinals (s.pass.plan.placements.map Prod.snd) →
      Gaps c.snapshot.ordinals ((rows.foldl (c.planRow slots) s).pass.plan.placements.map Prod.snd) ∧
        (rows.foldl (c.planRow slots) s).pass.plan.placements.map Prod.fst =
          s.pass.plan.placements.map Prod.fst ++ newRows s.pass.rows rows := by
  induction rows with
  | nil => exact fun s h => ⟨h, by simp [newRows]⟩
  | cons row rows ih =>
    intro s h
    have hrow := Context.planRow_planned (c := c) slots s row
    have hrest : newRows (c.planRow slots s row).pass.rows rows = newRows s.pass.rows rows := by
      simp only [newRows, hrow.verdict]
    obtain ⟨hold, hplacements⟩ | ⟨hnew, mid, hplanning, hplacements⟩ := hrow.placements
    · have hgaps : Gaps c.snapshot.ordinals ((c.planRow slots s row).pass.plan.placements.map Prod.snd) := by
        rw [hplacements]
        exact h
      obtain ⟨hgaps, hindexes⟩ := ih _ hgaps
      refine ⟨hgaps, ?_⟩
      rw [List.foldl_cons, hindexes, hplacements, hrest]
      simp [newRows, hold]
    · have hgaps : Gaps c.snapshot.ordinals ((c.planRow slots s row).pass.plan.placements.map Prod.snd) := by
        rw [hplacements, List.map_append, ← hplanning.placements]
        exact gaps_placement hrange (by rw [hplanning.placements]; exact h) row
      obtain ⟨hgaps, hindexes⟩ := ih _ hgaps
      refine ⟨hgaps, ?_⟩
      rw [List.foldl_cons, hindexes, hplacements, hrest]
      simp [newRows, hnew]

theorem execute_gaps (hview : Indexed c.view) (hrange : ∀ v ∈ c.snapshot.ordinals, 0 < v ∧ v ≤ maxOrdinal) {r : Pass}
    (h : c.execute = .ok r) :
    Acceptable c.snapshot.ordinals (r.plan.placements.map Prod.snd) ∧
      r.plan.placements.map Prod.fst = newRows r.rows c.view := by
  obtain ⟨decided, hdecided, rfl⟩ := Context.execute_finish h
  have hplan : (c.cuts decided).plan = {} := by
    rw [(Context.cuts_cutting decided).1.plan]
    exact (Context.decided_once hview hdecided).2
  have hempty : Gaps c.snapshot.ordinals ((c.cuts decided).plan.placements.map Prod.snd) := by
    rw [hplan]
    exact ⟨⟨nofun, nofun, .nil⟩, nofun⟩
  obtain ⟨hgaps, hindexes⟩ := planRows_gaps hrange (c.slots (c.cuts decided)) c.view
    ⟨c.cuts decided, fun _ => 0, c.snapshot.uidBindings.map UidBinding.uid⟩ hempty
  refine ⟨hgaps.1, ?_⟩
  have hsame := (Context.finish_planned (c := c) decided).1
  have hnew : newRows (c.finish decided).rows c.view = newRows (c.cuts decided).rows c.view := by
    simp only [newRows, hsame.verdict]
  rw [hnew]
  rw [hplan] at hindexes
  exact hindexes

theorem newRows_eq_filter {view : List IncomingRow} (hview : Indexed view) (rows : Nat → RowVerdict) :
    newRows rows view = (List.range view.length).filter fun i => (rows i).verdict = .new := by
  have hrange : view.map IncomingRow.index = List.range view.length := by
    apply List.ext_getElem?
    intro n
    by_cases hn : n < view.length
    · rw [List.getElem?_map, List.getElem?_range hn, List.getElem?_eq_getElem hn, Option.map_some,
        hview n _ (List.getElem?_eq_getElem hn)]
    · rw [List.getElem?_eq_none (by simpa using hn), List.getElem?_eq_none (by simpa using hn)]
  rw [newRows, ← hrange, List.filter_map]
  rfl

/-- The planner takes the placements of every classification: it labels the new rows in increasing order, unless it runs
out of ordinals. -/
theorem placements_accepted {helpers : Helpers} {salt : Bytes} {messages : List Message}
    {neverStored : Option (Message → Bool)} {snapshot : Snapshot} {oracle : Oracle} {mode : UidMode}
    {result : Classification}
    (h : classify helpers (buildView helpers salt messages neverStored) snapshot oracle mode = .ok result)
    (hrange : ∀ v ∈ snapshot.ordinals, 0 < v ∧ v ≤ maxOrdinal) :
    result.writes.placements.map Prod.fst =
      (List.range messages.length).filter (fun i => (result.rows[i]?).any fun v => v.verdict = .new) ∧
    Acceptable snapshot.ordinals (result.writes.placements.map Prod.snd) ∧
    (planOrdinals snapshot.ordinals (result.writes.placements.map Prod.snd) = .error exhausted ∨
      ∃ (labels : List Int) (moved : List (Int × Int)),
        planOrdinals snapshot.ordinals (result.writes.placements.map Prod.snd) = .ok (labels.map some, moved) ∧
          labels.length = result.writes.placements.length ∧ labels.Pairwise (· < ·)) := by
  obtain ⟨r, hr, hrows, -, -, hwrites⟩ := classify_pass h
  have hview := indexed_buildView helpers salt messages neverStored
  obtain ⟨hacceptable, hindexes⟩ := execute_gaps (c := finalContext helpers _ snapshot oracle mode) hview hrange hr
  replace hindexes : r.plan.placements.map Prod.fst = newRows r.rows
    (buildView helpers salt messages neverStored) := hindexes
  have hplacements : result.writes.placements = r.plan.placements := by rw [hwrites]
  rw [hplacements]
  refine ⟨?_, hacceptable, ?_⟩
  · rw [hindexes, newRows_eq_filter hview, length_buildView]
    apply List.filter_congr
    intro i hi
    have hrow : result.rows[i]? = some (r.rows i) := by
      rw [hrows, getElem?_rows, length_buildView]
      exact ⟨List.mem_range.mp hi, rfl⟩
    rw [hrow, Option.any_some]
  · have hlabels := planOrdinals_labels hrange hacceptable
    rwa [List.length_map] at hlabels

def oneStored : Snapshot :=
  sampleSnapshot [sampleEntry (userMessage "a" none) 1] [storedBinding 1 (userMessage "a" none) none none] (by decide)

/-- Two new messages after a stored one. -/
def twoMore : Except ClassifierError Classification :=
  classify sampleHelpers
    (buildView sampleHelpers [] [userMessage "a" none, userMessage "b" none, userMessage "c" none] none) oneStored
    sampleOracle .off

theorem placements_accepted_twoMore :
    ∃ result, twoMore = .ok result ∧
      result.writes.placements = [(1, ⟨some 100, none, none⟩), (2, ⟨some 100, none, none⟩)] ∧
      Acceptable oneStored.ordinals (result.writes.placements.map Prod.snd) := by
  obtain ⟨result, h⟩ := exists_ok (x := twoMore) (by decide +kernel)
  exact ⟨result, h, map_of_ok (fun r => r.writes.placements) h (by decide +kernel),
    (placements_accepted h (by decide +kernel)).2.1⟩

end Classifier
