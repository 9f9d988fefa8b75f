import LcmX.ClassifierOnce

/-!
# Tool segments are debited whole, but for the run cut

`finish` first cuts the segments that are not all replays, and then the rest of
the run from the first of them on. The second cut is by place: it may end inside
another segment, and that segment is not looked at again.
-/
namespace Classifier

open IngestLedger Fallible

namespace Context

variable {c : Context} {p : Pass}

/-- Every row of the segment is a replay. -/
def complete (c : Context) (p : Pass) (start : Nat) : Bool :=
  (c.segment start).all fun i => (p.rows i).verdict = .replay

/-- The places that the run cut takes. -/
def runCut (c : Context) (p : Pass) : List Nat :=
  match p.run with
  | none => []
  | some run =>
    let cuts := c.cutInRun run (c.segmentStarts.filter fun start => ¬ c.complete p start)
    if cuts.any fun start => start < run.i + run.k then
      let stop := max (cuts.foldl min (run.i + run.k)) run.i
      List.range' stop (run.i + run.k - stop)
    else []

theorem mem_segment (hview : Indexed c.view) {start i : Nat} :
    i ∈ c.segment start ↔ ∃ row, c.view[i]? = some row ∧ row.toolSegment = some start := by
  simp only [segment, List.mem_map, List.mem_filter, decide_eq_true_eq]
  constructor
  · rintro ⟨row, ⟨hrow, hsegment⟩, rfl⟩
    exact ⟨row, hview.get hrow, hsegment⟩
  · rintro ⟨row, hrow, hsegment⟩
    exact ⟨row, ⟨List.mem_of_getElem? hrow, hsegment⟩, hview i row hrow⟩

theorem segment_disjoint (hview : Indexed c.view) {start start' i : Nat} (h : i ∈ c.segment start)
    (h' : i ∈ c.segment start') : start = start' := by
  obtain ⟨row, hrow, hsegment⟩ := (mem_segment hview).mp h
  obtain ⟨row', hrow', hsegment'⟩ := (mem_segment hview).mp h'
  rw [hrow] at hrow'
  cases hrow'
  rw [hsegment] at hsegment'
  exact Option.some.inj hsegment'

theorem mem_segmentStarts_of_mem (hview : Indexed c.view) {start i : Nat} (h : i ∈ c.segment start) :
    start ∈ c.segmentStarts := by
  obtain ⟨row, hrow, hsegment⟩ := (mem_segment hview).mp h
  rw [segmentStarts, List.mem_eraseDups, List.mem_filterMap]
  exact ⟨row, List.mem_of_getElem? hrow, hsegment⟩

theorem complete_congr {q : Pass} {start : Nat}
    (h : ∀ i ∈ c.segment start, ((q.rows i).verdict = .replay ↔ (p.rows i).verdict = .replay)) :
    c.complete q start = c.complete p start := by
  unfold complete
  rw [Bool.eq_iff_iff]
  simp only [List.all_eq_true, decide_eq_true_eq]
  constructor
  · exact fun hall i hi => (h i hi).mp (hall i hi)
  · exact fun hall i hi => (h i hi).mpr (hall i hi)

/-- What is left after the incomplete ones among `starts` have been cut. -/
structure SegmentsCut (c : Context) (p : Pass) (starts : List Nat) (s : Pass × List Nat) : Prop where
  once : Once s.1
  run : s.1.run = p.run
  verdict : ∀ i, (s.1.rows i).verdict = .replay ↔
    (p.rows i).verdict = .replay ∧ ∀ start ∈ starts, i ∈ c.segment start → c.complete p start = true
  cuts : s.2 = starts.filter fun start => ¬ c.complete p start

theorem run_cuts (l : List Nat) (p : Pass) : (l.foldl Pass.cut p).run = p.run := by
  induction l generalizing p with
  | nil => rfl
  | cons i l ih =>
    rw [List.foldl_cons, ih]
    unfold Pass.cut
    split <;> rfl

/-- Cutting one more segment keeps the account of what is left. -/
theorem SegmentsCut.step (hview : Indexed c.view) {starts : List Nat} {s : Pass × List Nat}
    (h : SegmentsCut c p starts s)
    {start : Nat} (hnew : start ∉ starts) : SegmentsCut c p (starts ++ [start]) (c.cutSegment s start) := by
  -- The segment has no row in common with those before it.
  have hsame : ∀ i ∈ c.segment start, ((s.1.rows i).verdict = .replay ↔ (p.rows i).verdict = .replay) := by
    intro i hi
    rw [h.verdict]
    constructor
    · exact fun hi => hi.1
    · refine fun hreplay => ⟨hreplay, ?_⟩
      intro start' hstart' hi'
      rw [segment_disjoint hview hi' hi] at hstart'
      exact absurd hstart' hnew
  have hcomplete : c.complete s.1 start = c.complete p start := complete_congr hsame
  unfold cutSegment
  split
  · next hany =>
    have hincomplete : c.complete p start = false := by
      rw [← hcomplete, complete, List.all_eq_false]
      rw [List.any_eq_true] at hany
      obtain ⟨i, hi, hverdict⟩ := hany
      exact ⟨i, hi, by simpa using hverdict⟩
    refine ⟨h.once.cuts _, (run_cuts _ _).trans h.run, ?_, ?_⟩
    · intro i
      rw [cuts_verdict h.once, h.verdict]
      constructor
      · rintro ⟨⟨hreplay, hbefore⟩, hout⟩
        refine ⟨hreplay, ?_⟩
        intro start' hstart' hi
        cases List.mem_append.mp hstart' with
        | inl hin => exact hbefore start' hin hi
        | inr hin =>
          rw [List.mem_singleton.mp hin] at hi
          exact absurd hi hout
      · rintro ⟨hreplay, hall⟩
        refine ⟨⟨hreplay, fun start' hin => hall start' (List.mem_append_left _ hin)⟩, ?_⟩
        intro hi
        rw [hall start (by simp) hi] at hincomplete
        cases hincomplete
    · rw [h.cuts]
      simp [hincomplete]
  · next hnone =>
    have hyes : c.complete p start = true := by
      rw [← hcomplete, complete, List.all_eq_true]
      intro i hi
      by_contra hverdict
      exact hnone (List.any_eq_true.mpr ⟨i, hi, by simpa using hverdict⟩)
    refine ⟨h.once, h.run, ?_, ?_⟩
    · intro i
      rw [h.verdict]
      constructor
      · rintro ⟨hreplay, hbefore⟩
        refine ⟨hreplay, ?_⟩
        intro start' hstart' hi
        cases List.mem_append.mp hstart' with
        | inl hin => exact hbefore start' hin hi
        | inr hin => rwa [List.mem_singleton.mp hin]
      · rintro ⟨hreplay, hall⟩
        exact ⟨hreplay, fun start' hin => hall start' (List.mem_append_left _ hin)⟩
    · rw [h.cuts]
      simp [hyes]

/-- Cutting segments keeps the account of what is left. -/
theorem cutSegments_spec (hview : Indexed c.view) (honce : Once p) (starts : List Nat) (hnodup : starts.Nodup) :
    SegmentsCut c p starts (starts.foldl c.cutSegment (p, [])) := by
  induction starts using List.reverseRecOn with
  | nil => exact ⟨honce, rfl, fun i => by simp, rfl⟩
  | append_singleton starts start ih =>
    obtain ⟨hbefore, -, hdisjoint⟩ := List.nodup_append'.mp hnodup
    rw [List.foldl_append]
    apply (ih hbefore).step hview
    exact fun hin => hdisjoint hin (List.mem_singleton_self _)

theorem nodup_eraseDups (l : List Nat) : l.eraseDups.Nodup := by
  induction hn : l.length using Nat.strong_induction_on generalizing l with
  | _ n ih =>
    cases l with
    | nil => exact .nil
    | cons a l =>
      rw [List.eraseDups_cons, List.nodup_cons, List.mem_eraseDups]
      have hlength : (l.filter fun b => !b == a).length < n := by
        rw [← hn, List.length_cons]
        exact Nat.lt_succ_of_le (List.length_filter_le _ _)
      exact ⟨by simp, ih _ hlength _ rfl⟩

theorem nodup_segmentStarts (c : Context) : c.segmentStarts.Nodup := nodup_eraseDups _

/-- The rows that are replays after the cuts. -/
theorem cuts_spec (hview : Indexed c.view) (honce : Once p) (i : Nat) :
    ((c.cuts p).rows i).verdict = .replay ↔
      (p.rows i).verdict = .replay ∧ (∀ start, i ∈ c.segment start → c.complete p start = true) ∧ i ∉ c.runCut p := by
  have hsegments := cutSegments_spec hview honce c.segmentStarts (nodup_segmentStarts c)
  have hverdict : ((c.segmentStarts.foldl c.cutSegment (p, [])).1.rows i).verdict = .replay ↔
      (p.rows i).verdict = .replay ∧ ∀ start, i ∈ c.segment start → c.complete p start = true := by
    rw [hsegments.verdict]
    constructor
    · exact fun h => ⟨h.1, fun start hi => h.2 start (mem_segmentStarts_of_mem hview hi) hi⟩
    · exact fun h => ⟨h.1, fun start _ hi => h.2 start hi⟩
  rw [← and_assoc, ← hverdict]
  change ((c.cutRun (c.segmentStarts.foldl c.cutSegment (p, [])).1
    (c.segmentStarts.foldl c.cutSegment (p, [])).2).rows i).verdict
    = .replay ↔ _
  unfold cutRun runCut
  rw [hsegments.run, hsegments.cuts]
  cases p.run with
  | none => simp
  | some run =>
    dsimp only
    split
    · exact cuts_verdict hsegments.once _ i
    · simp

end Context

end Classifier
