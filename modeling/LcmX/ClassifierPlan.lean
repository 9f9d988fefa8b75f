import LcmX.ClassifierUnits

/-!
# What `finish` does

Cuts turn replays back into new rows and release their targets. The plan of the
rows reads the verdicts and leaves them alone.
-/
namespace Classifier

open IngestLedger Fallible

variable {p q r : Pass}

/-! ## Cuts -/

/-- Some replays have become new rows. -/
structure Cutting (p q : Pass) : Prop where
  core : ∀ i, (q.rows i).core = (p.rows i).core ∨ ((p.rows i).verdict = .replay ∧ (q.rows i).core = (.new, none, none))
  head : q.head = p.head
  runRecord : q.runRecord = p.runRecord
  plan : q.plan = p.plan

theorem Cutting.refl (p : Pass) : Cutting p p := ⟨fun _ => .inl rfl, rfl, rfl, rfl⟩

theorem Cutting.trans (h : Cutting p q) (h' : Cutting q r) : Cutting p r := by
  constructor
  · intro i
    cases h'.core i with
    | inl hsame =>
      cases h.core i with
      | inl hsame' => exact .inl (hsame.trans hsame')
      | inr hcut => exact .inr ⟨hcut.1, hsame.trans hcut.2⟩
    | inr hcut =>
      cases h.core i with
      | inl hsame =>
        have hverdict := (RowVerdict.core_eq hsame).1
        exact .inr ⟨hverdict.symm.trans hcut.1, hcut.2⟩
      | inr hcut' =>
        have hverdict := (RowVerdict.core_eq hcut'.2).1
        rw [hcut.1] at hverdict
        cases hverdict
  · exact h'.head.trans h.head
  · exact h'.runRecord.trans h.runRecord
  · exact h'.plan.trans h.plan

theorem cut_eq_self {i : Nat} (h : (p.rows i).verdict ≠ .replay) : p.cut i = p := by
  unfold Pass.cut
  split
  · next hverdict _ => exact absurd hverdict h
  · rfl

theorem cut_replay {i : Nat} {t : Target} (hverdict : (p.rows i).verdict = .replay)
    (htarget : (p.rows i).target = some t) :
    p.cut i = { p.setFirst i t with
      used := p.used.filter (· ≠ t)
      rows := Function.update p.rows i { reason := some .segment } } := by
  unfold Pass.cut
  rw [hverdict, htarget]

theorem cutting_cut (p : Pass) (i : Nat) : Cutting p (p.cut i) := by
  unfold Pass.cut
  split
  · next hverdict _ =>
    constructor
    · intro j
      by_cases hj : j = i
      · subst hj
        exact .inr ⟨hverdict, by simp [RowVerdict.core]⟩
      · left
        simp [hj]
    · rfl
    · rfl
    · rfl
  · exact .refl p

theorem cutting_foldl (l : List Nat) (p : Pass) : Cutting p (l.foldl Pass.cut p) := by
  induction l generalizing p with
  | nil => exact .refl p
  | cons i l ih => exact (cutting_cut p i).trans (ih _)

theorem Once.cut (h : Once p) (i : Nat) : Once (p.cut i) := by
  by_cases hverdict : (p.rows i).verdict = .replay
  · obtain ⟨t, -, htarget⟩ := h.claimed i hverdict
    rw [cut_replay hverdict htarget]
    constructor
    · intro j hj
      by_cases hji : j = i
      · subst hji
        simp at hj
      · simp only [Function.update_of_ne hji] at hj ⊢
        obtain ⟨t', ht', htarget'⟩ := h.claimed j hj
        refine ⟨t', List.mem_filter.mpr ⟨ht', ?_⟩, htarget'⟩
        -- Only the cut row had the target that is released.
        rw [decide_eq_true_eq]
        intro heq
        exact hji (h.once j i hj hverdict (by rw [htarget', htarget, heq]))
    · intro j k hj hk heq
      by_cases hji : j = i
      · subst hji
        simp at hj
      · by_cases hki : k = i
        · subst hki
          simp at hk
        · simp only [Function.update_of_ne hji, Function.update_of_ne hki] at hj hk heq
          exact h.once j k hj hk heq
  · rwa [cut_eq_self hverdict]

theorem Once.cuts (h : Once p) (l : List Nat) : Once (l.foldl Pass.cut p) := by
  induction l generalizing p with
  | nil => exact h
  | cons i l ih => exact ih (h.cut i)

theorem cut_verdict (h : Once p) (i j : Nat) :
    ((p.cut i).rows j).verdict = .replay ↔ (p.rows j).verdict = .replay ∧ j ≠ i := by
  by_cases hverdict : (p.rows i).verdict = .replay
  · obtain ⟨t, -, htarget⟩ := h.claimed i hverdict
    rw [cut_replay hverdict htarget]
    by_cases hji : j = i
    · subst hji
      simp
    · simp [hji]
  · rw [cut_eq_self hverdict]
    constructor
    · intro hj
      refine ⟨hj, ?_⟩
      rintro rfl
      exact hverdict hj
    · exact fun hj => hj.1

theorem cuts_verdict (h : Once p) (l : List Nat) (j : Nat) :
    ((l.foldl Pass.cut p).rows j).verdict = .replay ↔ (p.rows j).verdict = .replay ∧ j ∉ l := by
  induction l generalizing p with
  | nil => simp
  | cons i l ih =>
    rw [List.foldl_cons, ih (h.cut i), cut_verdict h, List.mem_cons, not_or, and_assoc]

namespace Context

variable {c : Context}

theorem cutSegments_cutting (starts : List Nat) (s : Pass × List Nat) :
    Cutting s.1 (starts.foldl c.cutSegment s).1 ∧ (Once s.1 → Once (starts.foldl c.cutSegment s).1) := by
  induction starts generalizing s with
  | nil => exact ⟨.refl _, fun h => h⟩
  | cons start starts ih =>
    have hstep : Cutting s.1 (c.cutSegment s start).1 ∧ (Once s.1 → Once (c.cutSegment s start).1) := by
      unfold cutSegment
      split
      · exact ⟨cutting_foldl _ _, fun h => h.cuts _⟩
      · exact ⟨.refl _, fun h => h⟩
    obtain ⟨hcutting, honce⟩ := ih (c.cutSegment s start)
    exact ⟨hstep.1.trans hcutting, fun h => honce (hstep.2 h)⟩

theorem cutRun_cutting (p : Pass) (cuts : List Nat) : Cutting p (c.cutRun p cuts) ∧
    (Once p → Once (c.cutRun p cuts)) := by
  unfold cutRun
  split
  · exact ⟨.refl p, fun h => h⟩
  · next run _ =>
    split
    · have hcutting := cutting_foldl (List.range' (max ((c.cutInRun run cuts).foldl min (run.i + run.k)) run.i)
        (run.i + run.k - max ((c.cutInRun run cuts).foldl min (run.i + run.k)) run.i)) p
      refine ⟨⟨hcutting.core, hcutting.head, hcutting.runRecord, hcutting.plan⟩, ?_⟩
      intro h
      exact (h.cuts _).sameCore ⟨fun _ => rfl, rfl⟩
    · exact ⟨.refl p, fun h => h⟩

theorem cuts_cutting (p : Pass) : Cutting p (c.cuts p) ∧ (Once p → Once (c.cuts p)) := by
  have hsegments := cutSegments_cutting (c := c) c.segmentStarts (p, [])
  have hrun := cutRun_cutting (c := c) (c.segmentStarts.foldl c.cutSegment (p, [])).1
    (c.segmentStarts.foldl c.cutSegment (p, [])).2
  exact ⟨hsegments.1.trans hrun.1, fun h => hrun.2 (hsegments.2 h)⟩

/-! ## The plan of the rows -/

/-- The verdicts stay, and so do the entries and placements planned so far. -/
structure Planning (p q : Pass) : Prop extends SameCore p q where
  head : q.head = p.head
  run : q.run = p.run
  entries : q.plan.entries = p.plan.entries
  placements : q.plan.placements = p.plan.placements

theorem Planning.refl (p : Pass) : Planning p p := ⟨.refl p, rfl, rfl, rfl, rfl⟩

theorem Planning.trans (h : Planning p q) (h' : Planning q r) : Planning p r :=
  ⟨h.toSameCore.trans h'.toSameCore, h'.head.trans h.head, h'.run.trans h.run, h'.entries.trans h.entries,
    h'.placements.trans h.placements⟩

theorem planning_of_quiet (h : Quiet p q) : Planning p q :=
  ⟨h.toSameCore, h.head, h.run, by rw [h.plan], by rw [h.plan]⟩

theorem planning_refreshFirst (p : Pass) (i : Nat) : Planning p (refreshFirst p i) := by
  unfold refreshFirst
  split
  · exact ⟨⟨fun _ => rfl, rfl⟩, rfl, rfl, rfl, rfl⟩
  · exact .refl p

theorem planning_compareSlot (slots : List (Option Bytes × Option Target)) (row : IncomingRow) (s : Planner) :
    Planning s.pass (c.compareSlot slots row s).pass := by
  unfold compareSlot
  dsimp only
  split
  · exact .refl _
  · dsimp only
    split
    · exact planning_of_quiet (quiet_count _ _ _)
    · split
      · exact .refl _
      · exact planning_of_quiet (quiet_reject _ _ _ _)
    · exact planning_of_quiet (quiet_reject _ _ _ _)

theorem planning_nameHeadless (p : Pass) (row : IncomingRow) : Planning p (c.nameHeadless p row) := by
  unfold nameHeadless
  split
  · split
    · exact planning_of_quiet (quiet_reject p _ _ _)
    · exact .refl p
  · exact .refl p

theorem core_relate (v : RowVerdict) (t : Target) : (relate v t).core = v.core := by
  unfold relate
  split <;> rfl

theorem core_explain (p : Pass) (i : Nat) (t : Target) (v : RowVerdict) : (explain p i t v).core = v.core := by
  unfold explain
  split <;> rfl

theorem core_markGenerated (row : IncomingRow) (v : RowVerdict) : (c.markGenerated row v).core = v.core := by
  unfold markGenerated
  split <;> rfl

theorem planning_annotate (p : Pass) (row : IncomingRow) : Planning p (c.annotate p row) := by
  apply planning_of_quiet
  apply quiet_modifyRow
  intro v
  rw [core_markGenerated]
  split
  · rfl
  · rw [core_explain, core_relate]

/-- A new row gets one placement, from the bounds of the verdicts. -/
theorem planNew_placement (slots : List (Option Bytes × Option Target)) (row : IncomingRow) (s : Planner) :
    ∃ mid, Planning s.pass mid ∧ SameCore mid (c.planNew slots row s).pass ∧
      (c.planNew slots row s).pass.head = mid.head ∧ (c.planNew slots row s).pass.run = mid.run ∧
      (c.planNew slots row s).pass.plan.entries = mid.plan.entries ∧
      (c.planNew slots row s).pass.plan.placements = mid.plan.placements ++ [(row.index, c.placement mid row)] := by
  have hnotes : Planning s.pass (c.annotate (c.nameHeadless
      (c.compareSlot slots row { s with pass := refreshFirst s.pass row.index }).pass row) row) := by
    have hslot := planning_compareSlot (c := c) slots row { s with pass := refreshFirst s.pass row.index }
    exact ((planning_refreshFirst _ _).trans hslot).trans ((planning_nameHeadless _ _).trans (planning_annotate _ _))
  unfold planNew
  dsimp only
  split
  · split
    · refine ⟨_, ?_, ?_, ?_, ?_, ?_, rfl⟩
      · exact hnotes.trans ⟨⟨fun _ => rfl, rfl⟩, rfl, rfl, rfl, rfl⟩
      · exact ⟨fun _ => rfl, rfl⟩
      · rfl
      · rfl
      · rfl
    · refine ⟨_, ?_, ?_, ?_, ?_, ?_, rfl⟩
      · exact hnotes.trans ⟨⟨fun _ => rfl, rfl⟩, rfl, rfl, rfl, rfl⟩
      · exact ⟨fun _ => rfl, rfl⟩
      · rfl
      · rfl
      · rfl
  · exact ⟨_, hnotes, ⟨fun _ => rfl, rfl⟩, rfl, rfl, rfl, rfl⟩

theorem planDescriptor_kept (row : IncomingRow) (t : Target) (plan : WritePlan) :
    (c.planDescriptor row t plan).entries = plan.entries ∧
    (c.planDescriptor row t plan).placements = plan.placements := by
  unfold planDescriptor
  split
  · exact ⟨rfl, rfl⟩
  · dsimp only
    split <;> split <;> (try split) <;> exact ⟨rfl, rfl⟩

theorem planStamp_kept (row : IncomingRow) (b : Binding) (ev : Option Evidence) (plan : WritePlan) :
    (c.planStamp row b ev plan).entries = plan.entries ∧ (c.planStamp row b ev plan).placements = plan.placements := by
  unfold planStamp
  split
  · split <;> exact ⟨rfl, rfl⟩
  · exact ⟨rfl, rfl⟩

theorem planning_planReplay (row : IncomingRow) (v : RowVerdict) (s : Planner) :
    Planning s.pass (c.planReplay row v s).pass := by
  unfold planReplay
  split
  · obtain ⟨hentries, hplacements⟩ := planDescriptor_kept (c := c) row (.descriptor _ _) s.pass.plan
    exact ⟨⟨fun _ => rfl, rfl⟩, rfl, rfl, hentries, hplacements⟩
  · split
    · exact .refl _
    · next b _ =>
      obtain ⟨hentries, hplacements⟩ := planStamp_kept (c := c) row b v.evidence s.pass.plan
      dsimp only
      split
      · exact ⟨⟨fun _ => rfl, rfl⟩, rfl, rfl, hentries, hplacements⟩
      · exact ⟨⟨fun _ => rfl, rfl⟩, rfl, rfl, hentries, hplacements⟩
  · exact .refl _

theorem planConstituents_kept (row : IncomingRow) (v : RowVerdict) (plan : WritePlan) :
    (c.planConstituents row v plan).entries = plan.entries ∧
      (c.planConstituents row v plan).placements = plan.placements := by
  unfold planConstituents
  split <;> exact ⟨rfl, rfl⟩

/-- One row of the plan: one entry from its verdict, and a placement when it is new. -/
structure RowPlanned (c : Context) (row : IncomingRow) (p q : Pass) : Prop extends SameCore p q where
  head : q.head = p.head
  run : q.run = p.run
  entries : q.plan.entries = p.plan.entries ++ [plannedEntry row (p.rows row.index)]
  placements : ((p.rows row.index).verdict ≠ .new ∧ q.plan.placements = p.plan.placements) ∨
    ((p.rows row.index).verdict = .new ∧ ∃ mid, Planning p mid ∧
      q.plan.placements = p.plan.placements ++ [(row.index, c.placement mid row)])

theorem planRow_planned (slots : List (Option Bytes × Option Target)) (s : Planner) (row : IncomingRow) :
    RowPlanned c row s.pass (c.planRow slots s row).pass := by
  unfold planRow
  dsimp only
  cases hverdict : (s.pass.rows row.index).verdict with
  | skip => exact ⟨⟨fun _ => rfl, rfl⟩, rfl, rfl, rfl, .inl ⟨by simp [hverdict], rfl⟩⟩
  | new =>
    obtain ⟨mid, hplanning, hsame, hhead, hrun, hentries, hplacements⟩ := planNew_placement (c := c) slots row s
    obtain ⟨hkept, hkept'⟩ := planConstituents_kept (c := c) row (s.pass.rows row.index)
      (c.planNew slots row s).pass.plan
    have hcore := hplanning.toSameCore.trans hsame
    refine ⟨⟨hcore.core, hcore.used⟩, hhead.trans hplanning.head, hrun.trans hplanning.run, ?_,
      .inr ⟨hverdict, mid, hplanning, ?_⟩⟩
    · simp [hkept, hentries, hplanning.entries]
    · simp [hkept', hplacements, hplanning.placements]
  | replay =>
    have hplanning := planning_planReplay (c := c) row (s.pass.rows row.index) s
    obtain ⟨hkept, hkept'⟩ := planConstituents_kept (c := c) row (s.pass.rows row.index)
      (c.planReplay row (s.pass.rows row.index) s).pass.plan
    refine ⟨⟨hplanning.core, hplanning.used⟩, hplanning.head, hplanning.run, ?_, .inl ⟨by simp [hverdict], ?_⟩⟩
    · simp [hkept, hplanning.entries]
    · simp [hkept', hplanning.placements]

theorem plannedEntry_congr {v w : RowVerdict} (h : v.core = w.core) (row : IncomingRow) :
    plannedEntry row v = plannedEntry row w := by
  obtain ⟨hverdict, -, htarget⟩ := RowVerdict.core_eq h
  simp only [plannedEntry, rowRef, hverdict, htarget]

theorem planRows_planned (slots : List (Option Bytes × Option Target)) (rows : List IncomingRow) (s : Planner) :
    SameCore s.pass (rows.foldl (c.planRow slots) s).pass ∧ (rows.foldl (c.planRow slots) s).pass.head = s.pass.head ∧
      (rows.foldl (c.planRow slots) s).pass.run = s.pass.run ∧
      (rows.foldl (c.planRow slots) s).pass.plan.entries =
        s.pass.plan.entries ++ rows.map fun row => plannedEntry row (s.pass.rows row.index) := by
  induction rows generalizing s with
  | nil => exact ⟨.refl _, rfl, rfl, by simp⟩
  | cons row rows ih =>
    have hrow := planRow_planned (c := c) slots s row
    obtain ⟨hsame, hhead, hrun, hentries⟩ := ih (c.planRow slots s row)
    refine ⟨hrow.toSameCore.trans hsame, hhead.trans hrow.head, hrun.trans hrow.run, ?_⟩
    have hrest : (rows.map fun r => plannedEntry r ((c.planRow slots s row).pass.rows r.index)) =
        rows.map fun r => plannedEntry r (s.pass.rows r.index) := by
      apply List.map_congr_left
      intro r _
      exact plannedEntry_congr (hrow.core r.index) r
    rw [List.foldl_cons, hentries, hrow.entries, hrest, List.append_assoc, List.map_cons]
    rfl

/-- `finish` cuts, and then plans one entry for each row. -/
theorem finish_planned (p : Pass) :
    SameCore (c.cuts p) (c.finish p) ∧ (c.finish p).head = p.head ∧ (c.finish p).run = (c.cuts p).run ∧
      (c.finish p).plan.entries = p.plan.entries ++ c.view.map fun row => plannedEntry row
      ((c.cuts p).rows row.index) := by
  obtain ⟨hsame, hhead, hrun, hentries⟩ := planRows_planned (c := c) (c.slots (c.cuts p)) c.view
    ⟨c.cuts p, fun _ => 0, c.snapshot.uidBindings.map UidBinding.uid⟩
  have hcutting := (cuts_cutting (c := c) p).1
  refine ⟨hsame, hhead.trans hcutting.head, hrun, ?_⟩
  rw [← hcutting.plan]
  exact hentries

/-! ## Whole passes -/

/-- The states between the phases. -/
structure Decided (c : Context) (searched headed strong weak segments decided : Pass) : Prop where
  searched_eq : searched = c.runSearch c.initial
  headed_ok : c.chooseHead searched = .ok headed
  strong_eq : strong = c.strong headed
  weak_ok : c.weak false strong = .ok weak
  segments_ok : c.weak true weak = .ok segments
  decided_eq : decided = c.discovery segments

theorem decideRows_phases {decided : Pass} (h : c.decideRows c.initial = .ok decided) :
    ∃ searched headed strong weak segments, Decided c searched headed strong weak segments decided := by
  simp only [decideRows, bind_ok] at h
  obtain ⟨headed, hheaded, weak, hweak, segments, hsegments, h⟩ := h
  cases h
  exact ⟨_, headed, _, weak, segments, rfl, hheaded, rfl, hweak, hsegments, rfl⟩

/-- What the search has settled stays. -/
theorem decideRows_settled {decided : Pass} (h : c.decideRows c.initial = .ok decided) :
    decided.run = (c.runSearch c.initial).run ∧ ∀ i, ((c.runSearch c.initial).rows i).verdict ≠ .new →
      (decided.rows i).core = ((c.runSearch c.initial).rows i).core := by
  obtain ⟨searched, headed, strong, weak, segments, h⟩ := decideRows_phases h
  obtain ⟨rfl, hheaded, rfl, hweak, hsegments, rfl⟩ := h
  have hhead := chooseHead_headed hheaded
  have hstrong := strong_grows (c := c) headed
  obtain ⟨_, _, -, -, hplain⟩ := weak_grows hweak
  obtain ⟨_, _, -, -, hcalls⟩ := weak_grows hsegments
  have hquiet := discovery_quiet (c := c) segments
  constructor
  · rw [hquiet.run, hcalls.run.1, hplain.run.1, hstrong.run.1, hhead.run]
  · intro i hi
    -- Each phase keeps the core, so the row is settled for the next one too.
    have step : ∀ {p q : Pass}, (q.rows i).core = (p.rows i).core → (p.rows i).verdict ≠ .new →
        (q.rows i).verdict ≠ .new := by
      intro p q hcore hp hq
      exact hp ((RowVerdict.core_eq hcore).1.symm.trans hq)
    have h₁ := hhead.core i
    have h₂ := hstrong.settled (step h₁ hi)
    have h₃ := hplain.settled (step h₂ (step h₁ hi))
    have h₄ := hcalls.settled (step h₃ (step h₂ (step h₁ hi)))
    rw [hquiet.core i, h₄, h₃, h₂, h₁]

theorem execute_finish {r : Pass} (h : c.execute = .ok r) :
    ∃ decided, c.decideRows c.initial = .ok decided ∧ r = c.finish decided := by
  simp only [execute, bind_ok] at h
  obtain ⟨decided, hdecided, h⟩ := h
  cases h
  exact ⟨decided, hdecided, rfl⟩

theorem decided_once (hview : Indexed c.view) {decided : Pass} (h : c.decideRows c.initial = .ok decided) :
    Once decided ∧ decided.plan = {} := by
  obtain ⟨searched, headed, strong, weak, segments, h⟩ := decideRows_phases h
  obtain ⟨q, hgrows, hsame, -, hplan⟩ := runSearch_grows hview
  have hsearched : Once searched ∧ searched.plan = {} := by
    rw [h.searched_eq]
    exact ⟨((once_initial c).grows hgrows).sameCore hsame, by rw [hplan, hgrows.plan]; rfl⟩
  have hheaded := chooseHead_headed h.headed_ok
  have hstrong : Grows (StrongLicence c) headed strong := h.strong_eq ▸ strong_grows headed
  obtain ⟨_, _, _, _, hweak⟩ := weak_grows h.weak_ok
  obtain ⟨_, _, _, _, hsegments⟩ := weak_grows h.segments_ok
  have hquiet := discovery_quiet (c := c) segments
  rw [← h.decided_eq] at hquiet
  constructor
  · exact ((((hsearched.1.sameCore hheaded.toSameCore).grows hstrong).grows hweak).grows hsegments).sameCore
      hquiet.toSameCore
  · rw [hquiet.plan, hsegments.plan, hweak.plan, hstrong.plan, hheaded.plan, hsearched.2]

end Context

/-- `tuple(self.rows)`. -/
theorem getElem?_rows {n i : Nat} {rows : Nat → RowVerdict} {v : RowVerdict} :
    ((List.range n).map rows)[i]? = some v ↔ i < n ∧ v = rows i := by
  by_cases hi : i < n
  · rw [List.getElem?_map, List.getElem?_range hi]
    simp [hi, eq_comm]
  · rw [List.getElem?_eq_none (by simpa using hi)]
    simp [hi]

/-- A classification is the result of one pass, without stamps when the lineage is marked or the
view proves a restamp. -/
theorem classify_pass {helpers : Helpers} {view : List IncomingRow} {snapshot : Snapshot}
    {oracle : Oracle} {mode : UidMode}
    {result : Classification} (h : classify helpers view snapshot oracle mode = .ok result) :
    ∃ r, (finalContext helpers view snapshot oracle mode).execute = .ok r ∧
      result.rows = (List.range view.length).map r.rows ∧ result.head = r.head ∧ result.run = r.run ∧
      result.writes = { r.plan with stampUnreliable := result.writes.stampUnreliable } := by
  simp only [classify, bind_ok] at h
  obtain ⟨first, hfirst, h⟩ := h
  split at h
  · next hreruns =>
    simp only [bind_ok] at h
    obtain ⟨second, hsecond, h⟩ := h
    cases h
    refine ⟨second, ?_, rfl, rfl, rfl, rfl⟩
    rw [finalContext, hreruns, Bool.or_true]
    exact hsecond
  · next hreruns =>
    cases h
    refine ⟨first, ?_, rfl, rfl, rfl, rfl⟩
    rw [Bool.not_eq_true] at hreruns
    rw [finalContext, hreruns, Bool.or_false]
    exact hfirst

end Classifier
