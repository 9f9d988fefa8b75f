import LcmX.ClassifierPlan

/-!
# Passes that do not fail

A pass fails when it sorts a binding that has no ordinal, or meets a reference
that no binding has. The writers give every kept binding an ordinal and refer to
bindings that exist; then `classify` returns.
-/
namespace Classifier

open IngestLedger Fallible

/-- The kept bindings have ordinals. -/
def Snapshot.Ordered (s : Snapshot) : Prop := ∀ b ∈ s.bindings, b.kept = true → b.ordinal ≠ none

theorem sortedByOrdinal_total (before : Int → Int → Bool) {l : List Binding} (h : ∀ b ∈ l, b.ordinal ≠ none) :
    ∃ sorted, sortedByOrdinal before l = .ok sorted := by
  unfold sortedByOrdinal
  rw [if_neg]
  · exact ⟨_, rfl⟩
  · rintro ⟨-, b, hb, hnone⟩
    exact h b hb hnone

namespace Context

variable {c : Context} {p : Pass}

/-- The records that a run can be chosen from refer to bindings. -/
def RefsBound (c : Context) : Prop :=
  ∀ record ∈ c.snapshot.records, record.eligible = true → ∀ entry ∈ record.entries, ∀ id,
    c.entryTarget entry = some (.occ id) → c.snapshot.binding? id ≠ none

theorem firstOrdinal_total {entries : List ViewEntry}
    (h : ∀ entry ∈ entries, ∀ id, c.entryTarget entry = some (.occ id) → c.snapshot.binding? id ≠ none) :
    ∃ first, c.firstOrdinal entries = .ok first := by
  induction entries with
  | nil => exact ⟨none, rfl⟩
  | cons entry entries ih =>
    obtain ⟨first, hrest⟩ := ih fun e he => h e (List.mem_cons_of_mem _ he)
    unfold firstOrdinal
    split
    · next id htarget =>
      cases hb : c.snapshot.binding? id with
      | none => exact absurd hb (h entry List.mem_cons_self id htarget)
      | some b =>
        dsimp only
        split
        · exact ⟨_, rfl⟩
        · exact ⟨first, hrest⟩
    · exact ⟨first, hrest⟩

theorem runHead_total (h : ∀ run record, p.run = some run → p.runRecord = some record →
      ∃ first, c.firstOrdinal (record.entries.drop run.j) = .ok first) :
    ∃ head, c.runHead p = .ok head := by
  unfold runHead
  split
  · next run record hrun hrecord =>
    obtain ⟨first, hfirst⟩ := h run record hrun hrecord
    rw [hfirst]
    cases first <;> exact ⟨_, rfl⟩
  · exact ⟨none, rfl⟩

theorem nextHit_total (last : Int) (digest : Bytes) {kept : List Binding} (h : ∀ b ∈ kept, b.ordinal ≠ none) :
    ∃ hit, nextHit last digest kept = .ok hit := by
  induction kept with
  | nil => exact ⟨none, rfl⟩
  | cons b kept ih =>
    unfold nextHit
    split
    · next hnone => exact absurd hnone (h b List.mem_cons_self)
    · split
      · exact ⟨_, rfl⟩
      · exact ih fun x hx => h x (List.mem_cons_of_mem _ hx)

theorem historyHits_total {kept : List Binding} (h : ∀ b ∈ kept, b.ordinal ≠ none) (rows : List IncomingRow) :
    ∀ last, ∃ hits, historyHits kept last rows = .ok hits := by
  induction rows with
  | nil => exact fun last => ⟨[], rfl⟩
  | cons row rows ih =>
    intro last
    obtain ⟨hit, hhit⟩ := nextHit_total last row.identityDigest
      fun b hb => h b (List.mem_of_mem_take (i := 8) hb)
    unfold historyHits
    rw [hhit]
    cases hit with
    | none => exact ⟨_, rfl⟩
    | some b =>
      obtain ⟨hits, hhits⟩ := ih (b.ordinal.getD 0)
      refine ⟨b :: hits, ?_⟩
      change (historyHits kept (b.ordinal.getD 0) rows >>= fun hits => pure (b :: hits)) = _
      rw [hhits]
      rfl

theorem historyHead_total {kept : List Binding} (h : ∀ b ∈ kept, b.ordinal ≠ none) (eligible : List IncomingRow) :
    ∃ head, historyHead kept eligible = .ok head := by
  unfold historyHead
  dsimp only
  split
  · obtain ⟨hits, hhits⟩ := historyHits_total h (eligible.take (min 3 kept.length)) (-1)
    rw [hhits]
    exact ⟨_, rfl⟩
  · exact ⟨none, rfl⟩

theorem chooseHead_total (hmode : c.mode ≠ .on) (hordered : c.snapshot.Ordered)
    (hrun : ∃ head, c.runHead p = .ok head) :
    ∃ q, c.chooseHead p = .ok q := by
  obtain ⟨head, hhead⟩ := hrun
  have hkept : ∀ b ∈ c.snapshot.keptBindings, b.ordinal ≠ none := by
    intro b hb
    obtain ⟨hbinding, hkept⟩ := mem_keptBindings.mp hb
    exact hordered b hbinding hkept
  obtain ⟨kept, hsorted⟩ := sortedByOrdinal_total (· ≤ ·) hkept
  have hkeyed : c.keyedHead = .ok none := if_neg hmode
  obtain ⟨history, hhistory⟩ := historyHead_total (fun b hb => hkept b ((mem_of_sortedByOrdinal hsorted b).mp hb))
    (c.view.filter fun r => ¬ r.neverStored ∧ ¬ c.oracle.hasGeneratedMarker r.message)
  unfold chooseHead
  rw [bind_of_ok hhead]
  cases head with
  | some head => exact ⟨_, rfl⟩
  | none =>
    dsimp only
    rw [bind_of_ok hsorted, bind_of_ok hhistory]
    cases history with
    | some head => exact ⟨_, rfl⟩
    | none =>
      dsimp only
      rw [bind_of_ok hkeyed]
      exact ⟨_, rfl⟩

theorem collect_total (hordered : c.snapshot.Ordered) (segments : Bool) (rows : List IncomingRow) :
    ∀ p : Pass, ∃ r, c.collect segments rows p = .ok r := by
  induction rows with
  | nil => exact fun p => ⟨_, rfl⟩
  | cons row rows ih =>
    intro p
    unfold collect
    split
    · exact ih p
    · obtain ⟨candidates, hcandidates⟩ : ∃ l, c.rowCandidates row = .ok l := by
        unfold rowCandidates
        apply sortedByOrdinal_total
        intro b hb
        have hcandidate := candidateOf_mem hb
        exact hordered b hcandidate.binding hcandidate.kept
      obtain ⟨rest, hrest⟩ := ih (candidates.foldl (c.weigh row) (p.count .rowCandidatePairs candidates.length, [])).1
      rw [bind_of_ok hcandidates]
      dsimp only
      rw [bind_of_ok hrest]
      exact ⟨_, rfl⟩

theorem weak_total (hordered : c.snapshot.Ordered) (segments : Bool) (p : Pass) : ∃ q, c.weak segments p = .ok q := by
  obtain ⟨r, hr⟩ := collect_total hordered segments c.view p
  unfold weak
  rw [bind_of_ok hr]
  exact ⟨_, rfl⟩

theorem execute_total (hmode : c.mode ≠ .on) (hview : Indexed c.view) (hordered : c.snapshot.Ordered)
    (hbound : RefsBound c) :
    ∃ r, c.execute = .ok r := by
  have hrun : ∃ head, c.runHead (c.runSearch c.initial) = .ok head := by
    apply runHead_total
    intro run record hrun hrecord
    obtain ⟨hnone, -⟩ | ⟨start, choice, hchoice, -, -, hchosen⟩ := runSearch_run hview
    · rw [hnone] at hrun
      cases hrun
    · rw [hchosen] at hrecord
      cases hrecord
      obtain ⟨hmem, helig, -⟩ := mem_runsFrom.mp (maxBy_mem (chooseRun_cases hchoice).2)
      exact firstOrdinal_total fun entry hentry => hbound _ hmem helig entry (List.mem_of_mem_drop hentry)
  obtain ⟨headed, hheaded⟩ := chooseHead_total hmode hordered hrun
  obtain ⟨weak, hweak⟩ := weak_total hordered false (c.strong headed)
  obtain ⟨segments, hsegments⟩ := weak_total hordered true weak
  unfold execute decideRows
  rw [bind_of_ok hheaded, bind_of_ok hweak, bind_of_ok hsegments]
  exact ⟨_, rfl⟩

end Context

theorem classify_total {helpers : Helpers} {view : List IncomingRow} {snapshot : Snapshot}
    {oracle : Oracle} {mode : UidMode}
    (hmode : mode ≠ .on) (hview : Indexed view) (hordered : snapshot.Ordered)
    (hbound : (firstContext helpers view snapshot oracle mode).RefsBound) :
    ∃ result, classify helpers view snapshot oracle mode = .ok result := by
  obtain ⟨first, hfirst⟩ :=
    Context.execute_total (c := firstContext helpers view snapshot oracle mode) hmode hview hordered
    hbound
  obtain ⟨second, hsecond⟩ := Context.execute_total
    (c := { firstContext helpers view snapshot oracle mode with ignoreStamps := true }) hmode hview hordered hbound
  unfold classify
  dsimp only
  rw [bind_of_ok hfirst]
  split
  · rw [bind_of_ok hsecond]
    exact ⟨_, rfl⟩
  · exact ⟨_, rfl⟩

end Classifier
