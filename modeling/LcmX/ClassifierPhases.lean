import LcmX.ClassifierSteps

/-!
# The licence of each phase

What has to hold of a row, a target and an evidence when `run_search`, `strong`
or `weak` accepts them.
-/
namespace Classifier

open IngestLedger Fallible

/-- The index of a row is its place. -/
def Indexed (view : List IncomingRow) : Prop :=
  ∀ (n : Nat) (row : IncomingRow), view[n]? = some row → row.index = n

theorem indexed_buildRows (h : Helpers) (salt : Bytes) (neverStored : Option (Message → Bool))
    (messages : List Message) :
    ∀ start calls n row, (buildRows h salt neverStored start calls messages)[n]? = some row →
      row.index = start + n := by
  induction messages with
  | nil =>
    intro start calls n row hrow
    simp [buildRows] at hrow
  | cons m messages ih =>
    intro start calls n row hrow
    cases n with
    | zero =>
      simp only [buildRows, List.getElem?_cons_zero, Option.some.injEq] at hrow
      rw [← hrow]
      rfl
    | succ n =>
      rw [buildRows, List.getElem?_cons_succ] at hrow
      have hindex := ih _ _ _ _ hrow
      omega

theorem indexed_buildView (h : Helpers) (salt : Bytes) (messages : List Message)
    (neverStored : Option (Message → Bool)) :
    Indexed (buildView h salt messages neverStored) := by
  intro n row hrow
  have hindex := indexed_buildRows h salt neverStored messages 0 _ n row hrow
  omega

theorem Indexed.get {view : List IncomingRow} (h : Indexed view) {row : IncomingRow} (hrow : row ∈ view) :
    view[row.index]? = some row := by
  obtain ⟨n, hn⟩ := List.mem_iff_getElem?.mp hrow
  rwa [h n row hn]

theorem Indexed.injective {view : List IncomingRow} (h : Indexed view) {a b : IncomingRow}
    (ha : a ∈ view) (hb : b ∈ view)
    (heq : a.index = b.index) : a = b := by
  have hget := h.get ha
  rw [heq, h.get hb] at hget
  exact (Option.some.inj hget).symm

theorem Indexed.index_lt {view : List IncomingRow} (h : Indexed view) {row : IncomingRow} (hrow : row ∈ view) :
    row.index < view.length := (List.getElem?_eq_some_iff.mp (h.get hrow)).1

namespace Context

variable {c : Context} {p : Pass}

theorem initial_verdict (hview : Indexed c.view) {row : IncomingRow} (hrow : row ∈ c.view) :
    (c.initial.rows row.index).verdict = if row.neverStored then .skip else .new := by
  simp [initial, hview.get hrow]

/-! ## The run -/

/-- A row that the run takes: its entry refers to an eligible emission, or to a binding that no key disagrees with. -/
structure RunTaken (c : Context) (row : IncomingRow) (entry : ViewEntry) (t : Target)
    (ev : Option Evidence) : Prop where
  stored : row.neverStored = false
  target : c.entryTarget entry = some t
  proof : (∃ e, c.emission (some t) = some e ∧ e.eligible = true ∧ ev = some .rank4) ∨
    ∃ id b, t = .occ id ∧ c.snapshot.binding? id = some b ∧
      ((ev = some .runKeyed ∧ (c.positive row b = true ∨ c.currentUid row b = true)) ∨
        (ev = some .runUnkeyed ∧ c.incomingKey row = false ∧ c.storedKey b = false))

/-- A row of the run is taken against its entry. -/
theorem runRow_grows (row : IncomingRow) (entry : ViewEntry)
    (hnew : row.neverStored = false → (p.rows row.index).verdict = .new) :
    Grows (fun i t ev => i = row.index ∧ RunTaken c row entry t ev) p (c.runRow row entry p).1 := by
  unfold runRow
  split
  · exact .refl p
  · next hstored =>
    rw [Bool.not_eq_true] at hstored
    split
    · exact .quiet (quiet_count p _ _)
    · next viewSeq outputIndex htarget =>
      split
      · next helig =>
        rw [Option.any_eq_true] at helig
        obtain ⟨e, he, helig⟩ := helig
        exact grows_accept (hnew hstored) ⟨rfl, hstored, htarget, .inl ⟨e, he, helig, rfl⟩⟩
      · exact .quiet (quiet_count p _ _)
    · next id htarget =>
      split
      · exact .quiet (quiet_count p _ _)
      · next b hb =>
        split
        · exact .quiet (quiet_count p _ _)
        · split
          · exact .quiet ((quiet_reject p _ _ _).trans (quiet_count _ _ _))
          · split
            · exact .quiet ((quiet_reject p _ _ _).trans (quiet_count _ _ _))
            · split
              · next hkeyed =>
                exact grows_accept (hnew hstored) ⟨rfl, hstored, htarget, .inr ⟨id, b, rfl, hb, .inl ⟨rfl, hkeyed⟩⟩⟩
              · split
                · exact .quiet ((quiet_reject p _ _ _).trans (quiet_count _ _ _))
                · next hunkeyed =>
                  rw [not_or, Bool.not_eq_true, Bool.not_eq_true] at hunkeyed
                  exact grows_accept (hnew hstored)
                    ⟨rfl, hstored, htarget, .inr ⟨id, b, rfl, hb, .inr ⟨rfl, hunkeyed⟩⟩⟩

theorem runRows_grows (pairs : List (IncomingRow × ViewEntry)) (hnodup : (pairs.map fun q => q.1.index).Nodup) :
    ∀ p : Pass, (∀ q ∈ pairs, q.1.neverStored = false → (p.rows q.1.index).verdict = .new) →
      Grows (fun i t ev => ∃ q ∈ pairs, i = q.1.index ∧ RunTaken c q.1 q.2 t ev) p (c.runRows pairs p).1 := by
  induction pairs with
  | nil => exact fun p _ => .refl p
  | cons q pairs ih =>
    obtain ⟨row, entry⟩ := q
    rw [List.map_cons, List.nodup_cons] at hnodup
    intro p hnew
    have hrow := runRow_grows (c := c) row entry (hnew _ List.mem_cons_self)
    have hfirst := hrow.mono (Q := fun i t ev => ∃ q ∈ (row, entry) :: pairs, i = q.1.index ∧ RunTaken c q.1 q.2 t ev)
      fun i t ev h => ⟨_, List.mem_cons_self, h.1, h.2⟩
    simp only [runRows]
    split
    · refine hfirst.trans ((ih hnodup.2 _ ?_).mono fun i t ev h => ?_)
      · -- The later rows are other rows, so the first one left them new.
        intro q hq hstored
        obtain hsame | ⟨-, t, ev, ⟨hindex, -⟩, -⟩ := hrow.core q.1.index
        · rw [← hnew q (List.mem_cons_of_mem _ hq) hstored]
          exact (RowVerdict.core_eq hsame).1
        · exact absurd (List.mem_map.mpr ⟨q, hq, hindex⟩) hnodup.1
      · obtain ⟨q, hq, htaken⟩ := h
        exact ⟨q, List.mem_cons_of_mem _ hq, htaken⟩
    · exact hfirst

/-- The rows of a run with their entries. -/
def runPairs (c : Context) (i : Nat) (choice : RunChoice) : List (IncomingRow × ViewEntry) :=
  ((c.view.drop i).zip (choice.record.entries.drop choice.j)).take choice.k

theorem getElem?_runPairs {i n : Nat} {choice : RunChoice} {q : IncomingRow × ViewEntry}
    (h : (c.runPairs i choice)[n]? = some q) :
    n < choice.k ∧ c.view[i + n]? = some q.1 ∧ choice.record.entries[choice.j + n]? = some q.2 := by
  unfold runPairs at h
  rw [List.getElem?_take] at h
  split at h
  · next hn =>
    rw [List.getElem?_zip_eq_some, List.getElem?_drop, List.getElem?_drop] at h
    exact ⟨hn, h⟩
  · cases h

theorem nodup_runPairs (hview : Indexed c.view) (i : Nat) (choice : RunChoice) :
    ((c.runPairs i choice).map fun q => q.1.index).Nodup := by
  rw [List.nodup_iff_getElem?_ne_getElem?]
  intro m n hmn hn heq
  rw [List.length_map] at hn
  rw [List.getElem?_map, List.getElem?_map, List.getElem?_eq_getElem hn, List.getElem?_eq_getElem (hmn.trans hn)] at heq
  simp only [Option.map_some, Option.some.injEq] at heq
  have hm := hview _ _ (getElem?_runPairs (List.getElem?_eq_getElem (hmn.trans hn))).2.1
  have hn' := hview _ _ (getElem?_runPairs (List.getElem?_eq_getElem hn)).2.1
  omega

theorem maxBy_mem {α : Type} {before : α → α → Bool} {l : List α} {a : α} (h : maxBy before l = some a) : a ∈ l := by
  have hfold : ∀ (l : List α) (b : α), l.foldl (fun best x => if before best x then x else best) b ∈ b :: l := by
    intro l
    induction l with
    | nil => exact fun b => List.mem_cons_self
    | cons x l ih =>
      intro b
      rw [List.foldl_cons]
      split
      · exact List.mem_cons_of_mem _ (ih x)
      · cases List.mem_cons.mp (ih b) with
        | inl he =>
          rw [he]
          exact List.mem_cons_self
        | inr hin => exact List.mem_cons_of_mem _ (List.mem_cons_of_mem _ hin)
  cases l with
  | nil => cases h
  | cons b l =>
    cases h
    exact hfold l b

theorem chooseRun_cases {starts : List Nat} {i : Nat} {choice : RunChoice} (h : c.chooseRun starts = some (i, choice)) :
    i ∈ starts ∧ maxBy RunChoice.before (c.runsFrom i) = some choice := by
  induction starts with
  | nil => cases h
  | cons s starts ih =>
    unfold chooseRun at h
    split at h
    · next choice' hmax =>
      cases h
      exact ⟨List.mem_cons_self, hmax⟩
    · obtain ⟨hi, hmax⟩ := ih h
      exact ⟨List.mem_cons_of_mem _ hi, hmax⟩

theorem mem_runsFrom {i : Nat} {choice : RunChoice} :
    choice ∈ c.runsFrom i ↔ choice.record ∈ c.snapshot.records ∧ choice.record.eligible = true ∧
      choice.j < choice.record.entries.length ∧
        choice.k = c.runLength (c.view.drop i) (choice.record.entries.drop choice.j) ∧ 0 < choice.k := by
  obtain ⟨k, record, j⟩ := choice
  simp only [runsFrom, List.mem_flatMap, List.mem_filter, List.mem_filterMap, List.mem_range,
    Option.ite_none_right_eq_some,
    Option.some.injEq, RunChoice.mk.injEq]
  constructor
  · rintro ⟨record', ⟨hmem, helig⟩, j', hj, hpos, hk, rfl, rfl⟩
    exact ⟨hmem, helig, hj, hk.symm, hk ▸ hpos⟩
  · rintro ⟨hmem, helig, hj, hk, hpos⟩
    exact ⟨record, ⟨hmem, helig⟩, j, hj, hk ▸ hpos, hk.symm, rfl, rfl⟩

theorem repeats_of_lt_runLength {rows : List IncomingRow} {entries : List ViewEntry} {n : Nat} {row : IncomingRow}
    {entry : ViewEntry} (hrow : rows[n]? = some row) (hentry : entries[n]? = some entry)
    (hn : n < c.runLength rows entries) :
    c.repeats row entry = true := by
  induction rows generalizing entries n with
  | nil => simp at hrow
  | cons r rows ih =>
    cases entries with
    | nil => simp at hentry
    | cons e entries =>
      unfold runLength at hn
      split at hn
      · next hrep =>
        cases n with
        | zero =>
          cases hrow
          cases hentry
          exact hrep
        | succ n => exact ih hrow hentry (by omega)
      · omega

/-- What the run has to offer for a row that it takes. -/
def RunLicence (c : Context) (i : Nat) (t : Target) (ev : Option Evidence) : Prop :=
  ∃ start choice n row entry, c.chooseRun c.starts = some (start, choice) ∧ n < choice.k ∧ i = start + n ∧
    c.view[start + n]? = some row ∧ choice.record.entries[choice.j + n]? = some entry ∧ c.repeats row entry = true ∧
      RunTaken c row entry t ev

theorem runRows_licence (hview : Indexed c.view) {start : Nat} {choice : RunChoice}
    (hchoice : c.chooseRun c.starts = some (start, choice)) :
    Grows (RunLicence c) c.initial (c.runRows (c.runPairs start choice) c.initial).1 := by
  have hgrows := runRows_grows (c := c) (c.runPairs start choice) (nodup_runPairs hview start choice) c.initial (by
    intro q hq hstored
    obtain ⟨n, hn⟩ := List.mem_iff_getElem?.mp hq
    have hrow := List.mem_of_getElem? (getElem?_runPairs hn).2.1
    rw [initial_verdict hview hrow, hstored]
    rfl)
  apply hgrows.mono
  rintro i t ev ⟨q, hq, rfl, htaken⟩
  obtain ⟨n, hn⟩ := List.mem_iff_getElem?.mp hq
  obtain ⟨hlt, hrow, hentry⟩ := getElem?_runPairs hn
  refine ⟨start, choice, n, q.1, q.2, hchoice, hlt, hview _ _ hrow, hrow, hentry, ?_, htaken⟩
  have hlength := (mem_runsFrom.mp (maxBy_mem (chooseRun_cases hchoice).2)).2.2.2.1
  exact repeats_of_lt_runLength (by rw [List.getElem?_drop]; exact hrow) (by rw [List.getElem?_drop]; exact hentry)
    (hlength ▸ hlt)

theorem runSearch_none (p : Pass) (h : c.chooseRun c.starts = none) : c.runSearch p = p := by
  rw [runSearch, h]

theorem runSearch_some (p : Pass) {start : Nat} {choice : RunChoice} (h : c.chooseRun c.starts = some (start, choice)) :
    c.runSearch p =
      let taken := c.runRows (c.runPairs start choice) p
      if 0 < taken.2 then
        { taken.1 with
          run := some ⟨⟨choice.record.kind, choice.record.viewSeq⟩, start, choice.j, taken.2⟩
          runRecord := some choice.record }
      else taken.1 := by
  rw [runSearch, h]
  rfl

/-- The search grows the empty pass, and then records the run. -/
theorem runSearch_grows (hview : Indexed c.view) :
    ∃ q, Grows (RunLicence c) c.initial q ∧ SameCore q (c.runSearch c.initial) ∧
      (c.runSearch c.initial).head = q.head ∧ (c.runSearch c.initial).plan = q.plan := by
  cases hchoice : c.chooseRun c.starts with
  | none =>
    rw [runSearch_none _ hchoice]
    exact ⟨_, .refl _, .refl _, rfl, rfl⟩
  | some found =>
    obtain ⟨start, choice⟩ := found
    have hgrows := runRows_licence hview hchoice
    rw [runSearch_some _ hchoice]
    dsimp only
    split
    · exact ⟨_, hgrows, ⟨fun _ => rfl, rfl⟩, rfl, rfl⟩
    · exact ⟨_, hgrows, .refl _, rfl, rfl⟩

/-- The recorded run is the chosen one. -/
theorem runSearch_run (hview : Indexed c.view) :
    ((c.runSearch c.initial).run = none ∧ (c.runSearch c.initial).runRecord = none) ∨
      ∃ start choice, c.chooseRun c.starts = some (start, choice) ∧
        0 < (c.runRows (c.runPairs start choice) c.initial).2 ∧
        (c.runSearch c.initial).run = some ⟨⟨choice.record.kind, choice.record.viewSeq⟩, start, choice.j,
          (c.runRows (c.runPairs start choice) c.initial).2⟩ ∧
        (c.runSearch c.initial).runRecord = some choice.record := by
  cases hchoice : c.chooseRun c.starts with
  | none =>
    rw [runSearch_none _ hchoice]
    exact .inl ⟨rfl, rfl⟩
  | some found =>
    obtain ⟨start, choice⟩ := found
    rw [runSearch_some _ hchoice]
    dsimp only
    split
    · next haccepted => exact .inr ⟨start, choice, rfl, haccepted, rfl, rfl⟩
    · exact .inl (runRows_licence hview hchoice).run

/-! ## The head -/

/-- `choose_head` sets the head and counts. -/
structure Headed (p q : Pass) : Prop extends SameCore p q where
  run : q.run = p.run
  runRecord : q.runRecord = p.runRecord
  plan : q.plan = p.plan

theorem headed_setHead (p : Pass) (head : Head) : Headed p { p with head := head } :=
  ⟨⟨fun _ => rfl, rfl⟩, rfl, rfl, rfl⟩

theorem headed_count {p q : Pass} (h : Headed p q) (key : Counter) : Headed p (q.count key 1) :=
  ⟨⟨h.core, h.used⟩, h.run, h.runRecord, h.plan⟩

/-- Choosing the head sets the head and counts, and changes nothing else. -/
theorem chooseHead_headed {q : Pass} (h : c.chooseHead p = .ok q) : Headed p q := by
  have hrefl : Headed p p := ⟨.refl p, rfl, rfl, rfl⟩
  simp only [chooseHead, bind_ok] at h
  obtain ⟨head, -, h⟩ := h
  cases head with
  | some head =>
    cases h
    exact headed_setHead p head
  | none =>
    simp only [bind_ok] at h
    obtain ⟨kept, -, head, -, h⟩ := h
    cases head with
    | some head =>
      cases h
      exact headed_setHead p head
    | none =>
      simp only [bind_ok] at h
      obtain ⟨head, -, h⟩ := h
      cases head with
      | some head =>
        cases h
        exact headed_setHead p head
      | none =>
        cases h
        apply headed_count
        split
        · apply headed_count
          split
          · exact headed_count hrefl _
          · exact hrefl
        · split
          · exact headed_count hrefl _
          · exact hrefl

/-! ## Uids and emissions -/

/-- What `strong` accepts: a uid in mode `on`, or an emission that no stamp disagrees with. -/
inductive StrongTaken (c : Context) (row : IncomingRow) : Target → Option Evidence → Prop where
  | uid {b : Binding} (hmode : c.mode = .on) : StrongTaken c row (.occ b.occId) (some .rank1)
  | emission {e : Emission} (hmem : e ∈ c.snapshot.emissions) (helig : e.eligible = true)
      (hstamp : ¬ (truthy (c.knownStamp row) = true ∧ truthy e.observedStamp = true ∧ row.stamp ≠ e.observedStamp)) :
      StrongTaken c row (.descriptor e.viewSeq e.outputIndex) (some .rank4)

theorem quiet_revise (p : Pass) (row : IncomingRow) (b l : Binding) : Quiet p (revise p row b l) := by
  apply (quiet_reject p _ _ _).trans
  apply quiet_modifyRow
  exact fun _ => rfl

/-- A uid takes its row on strong evidence. -/
theorem strongUid_grows {row : IncomingRow} (hnew : (p.rows row.index).verdict = .new) {q : Pass}
    (h : c.strongUid row p = some q) : Grows (fun i t ev => i = row.index ∧ StrongTaken c row t ev) p q := by
  unfold strongUid at h
  split at h
  · cases h
  · split at h
    · cases h
    · dsimp only at h
      split at h
      · cases h
      · split at h
        · cases h
          exact .quiet (quiet_reject p _ _ _)
        · split at h
          · cases h
            exact .refl p
          · split at h
            · split at h
              · cases h
                exact .quiet (quiet_revise p row _ _)
              · split at h
                · next b _ _ _ _ hon =>
                  have hmode : c.mode = .on := hon.1
                  split at h
                  · cases h
                    exact grows_accept hnew ⟨rfl, .uid hmode⟩
                  · cases h
                · cases h
            · split at h
              · split at h
                · cases h
                  exact .quiet (quiet_defer p _ _ _)
                · cases h
              · cases h
                exact .quiet (quiet_revise p row _ _)
            · cases h

/-- The emissions of a row take it at most once, on strong evidence. -/
theorem strongEmissions_grows {row : IncomingRow} (emissions : List Emission)
    (hsub : ∀ e ∈ emissions, e ∈ c.snapshot.emissions) :
    ∀ p : Pass, (p.rows row.index).verdict = .new →
      Grows (fun i t ev => i = row.index ∧ StrongTaken c row t ev) p (c.strongEmissions row emissions p) := by
  induction emissions with
  | nil => exact fun p _ => .refl p
  | cons e emissions ih =>
    intro p hnew
    have hrest := ih fun x hx => hsub x (List.mem_cons_of_mem _ hx)
    -- A rejection is a note, and the row stays new.
    have hreject : ∀ t reason, Grows (fun i t ev => i = row.index ∧ StrongTaken c row t ev) p
        (c.strongEmissions row emissions (p.reject row.index t reason)) := by
      intro t reason
      have hquiet := quiet_reject p row.index t reason
      exact Grows.trans (.quiet hquiet) (hrest _ ((hquiet.verdict _).trans hnew))
    unfold strongEmissions
    split
    · exact hrest p hnew
    · dsimp only
      split
      · exact hreject _ _
      · next helig =>
        rw [not_not] at helig
        split
        · exact hreject _ _
        · next hstamp =>
          have htaken := StrongTaken.emission (hsub e List.mem_cons_self) helig hstamp
          have hgrows := grows_accept (P := fun i t ev => i = row.index ∧ StrongTaken c row t ev) hnew ⟨rfl, htaken⟩
          split
          · exact hgrows
          · next hfailed =>
            by_cases hused : Target.descriptor e.viewSeq e.outputIndex ∈ p.used
            · rw [accept_used hused]
              exact hrest p hnew
            · rw [accept_free hused] at hfailed
              exact absurd rfl hfailed

theorem strongRow_grows {row : IncomingRow} (p : Pass) :
    Grows (fun i t ev => i = row.index ∧ StrongTaken c row t ev) p (c.strongRow p row) := by
  unfold strongRow
  split
  · exact .refl p
  · next hnew =>
    rw [not_not] at hnew
    split
    · next q hq => exact strongUid_grows hnew hq
    · split
      · exact strongEmissions_grows _ (fun _ h => h) p hnew
      · exact .refl p

def StrongLicence (c : Context) (i : Nat) (t : Target) (ev : Option Evidence) : Prop :=
  ∃ row ∈ c.view, i = row.index ∧ StrongTaken c row t ev

theorem strong_grows (p : Pass) : Grows (StrongLicence c) p (c.strong p) := by
  apply Grows.foldl
  intro row hrow q
  exact (strongRow_grows q).mono fun i t ev h => ⟨row, hrow, h⟩

/-! ## Discovery -/

theorem discoverRow_quiet (p : Pass) (row : IncomingRow) : Quiet p (c.discoverRow p row) := by
  unfold discoverRow
  split
  · exact .refl p
  · split
    · exact quiet_defer p _ _ _
    · dsimp only
      split
      · exact quiet_defer p _ _ _
      · exact .refl p

theorem discovery_quiet (p : Pass) : Quiet p (c.discovery p) := by
  unfold discovery
  generalize c.view = view
  induction view generalizing p with
  | nil => exact .refl p
  | cons row view ih => exact (discoverRow_quiet p row).trans (ih _)

end Context

end Classifier
