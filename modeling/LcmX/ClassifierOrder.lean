import LcmX.ClassifierGaps

/-!
# Replays keep the stored order

The run follows its record, and its head is at or before everything it takes. The
weak passes add what fits the gaps and the window. So the replays that answer no
call increase in view order, from the head on.
-/
namespace Classifier

open IngestLedger Fallible

namespace Context

variable {c : Context} {p q : Pass}

/-! ## The run follows the record -/

/-- The ordinal of each occurrence that the record refers to. -/
def refOrdinals (c : Context) (record : ViewRecord) : List (Option Int) :=
  ((record.entries.filter fun e => ¬ e.isDescriptor).filterMap ViewEntry.ref).map fun id => c.ordinal (some (.occ id))

/-- Each of them is known, and they increase strictly. -/
def RefsIncrease (c : Context) (record : ViewRecord) : Prop :=
  ∃ ordinals : List Int, c.refOrdinals record = ordinals.map some ∧ ordinals.Pairwise (· < ·)

/-- The record that `run_search` chooses. -/
def chosenRecord (c : Context) : Option ViewRecord := (c.chooseRun c.starts).map fun found => found.2.record

theorem chosenRecord_eq {start : Nat} {choice : RunChoice} (h : c.chooseRun c.starts = some (start, choice)) :
    choice.record ∈ c.chosenRecord := by
  rw [chosenRecord, h]
  rfl

theorem entryTarget_occ {entry : ViewEntry} {id : Int} (h : c.entryTarget entry = some (.occ id)) :
    entry.isDescriptor = false ∧ entry.ref = some id := by
  unfold entryTarget at h
  split at h
  · rw [Option.map_eq_some_iff] at h
    obtain ⟨e, -, he⟩ := h
    cases he
  · next hentry =>
    rw [Option.map_eq_some_iff] at h
    obtain ⟨ref, href, heq⟩ := h
    cases heq
    exact ⟨by simpa using hentry, href⟩

theorem occ_of_ordinal {t : Option Target} {o : Int} (h : c.ordinal t = some o) : ∃ id, t = some (.occ id) := by
  unfold ordinal at h
  split at h
  · exact ⟨_, rfl⟩
  · cases h

variable {t : Target} {record : ViewRecord} {head : Head} {i : Nat} {ev : Option Evidence}

theorem RefsIncrease.ordinal (h : RefsIncrease c record) {entry : ViewEntry}
    (hentry : entry ∈ record.entries) {id : Int} (htarget : c.entryTarget entry = some (.occ id)) :
    ∃ o, c.ordinal (some (.occ id)) = some o := by
  obtain ⟨hrow, href⟩ := entryTarget_occ htarget
  obtain ⟨ordinals, heq, -⟩ := h
  have hmem : c.ordinal (some (.occ id)) ∈ c.refOrdinals record := by
    refine List.mem_map.mpr ⟨id, List.mem_filterMap.mpr ⟨entry, ?_, href⟩, rfl⟩
    simp [List.mem_filter, hentry, hrow]
  rw [heq] at hmem
  obtain ⟨o, -, ho⟩ := List.mem_map.mp hmem
  exact ⟨o, ho.symm⟩

theorem RefsIncrease.lt (h : RefsIncrease c record) {m n : Nat} {entry entry' : ViewEntry}
    {o o' : Int} (hmn : m < n) (hm : record.entries[m]? = some entry) (hn : record.entries[n]? = some entry')
    (ho : c.ordinal (c.entryTarget entry) = some o) (ho' : c.ordinal (c.entryTarget entry') = some o') : o < o' := by
  obtain ⟨ordinals, heq, hsorted⟩ := h
  have hpairs : (c.refOrdinals record).Pairwise fun x y => ∀ a ∈ x, ∀ b ∈ y, a < b := by
    rw [heq, List.pairwise_map]
    apply hsorted.imp
    intro a b hab x hx y hy
    cases hx
    cases hy
    exact hab
  unfold refOrdinals at hpairs
  rw [List.pairwise_map, List.pairwise_filterMap, List.pairwise_filter] at hpairs
  obtain ⟨hmlen, rfl⟩ := List.getElem?_eq_some_iff.mp hm
  obtain ⟨hnlen, rfl⟩ := List.getElem?_eq_some_iff.mp hn
  obtain ⟨id, htarget⟩ := occ_of_ordinal ho
  obtain ⟨id', htarget'⟩ := occ_of_ordinal ho'
  obtain ⟨hrow, href⟩ := entryTarget_occ htarget
  obtain ⟨hrow', href'⟩ := entryTarget_occ htarget'
  rw [htarget] at ho
  rw [htarget'] at ho'
  exact List.pairwise_iff_getElem.mp hpairs m n hmlen hnlen hmn (by simp [hrow])
    (by simp [hrow']) id href id' href' o ho o' ho'

theorem placed_initial (c : Context) {x : Nat × Int} : x ∉ c.placed c.initial := by
  intro hx
  obtain ⟨-, hreplay, -⟩ := mem_placed.mp hx
  simp only [initial] at hreplay
  split at hreplay <;> cases hreplay

theorem runSearch_increasing (hview : Indexed c.view)
    (hrefs : ∀ record ∈ c.chosenRecord, RefsIncrease c record) :
    Increasing c (c.runSearch c.initial) fun _ => True := by
  obtain ⟨q, hgrows, hsame, -, -⟩ := runSearch_grows hview
  apply Increasing.congr (p := q) _ hsame
  intro i j o o' hi hj _ _ hij
  obtain ⟨id, ev, ⟨start, choice, n, row, entry, hchoice, -, rfl, -, hentry, -, htaken⟩, hordinal⟩ :=
    (grows_mem_placed hgrows hi).resolve_left (placed_initial c)
  obtain ⟨id', ev', ⟨start', choice', n', row', entry', hchoice', -, rfl, -, hentry', -, htaken'⟩, hordinal'⟩ :=
    (grows_mem_placed hgrows hj).resolve_left (placed_initial c)
  rw [hchoice] at hchoice'
  cases hchoice'
  apply (hrefs _ (chosenRecord_eq hchoice)).lt (by omega : choice.j + n < choice.j + n') hentry hentry'
  · rwa [htaken.target]
  · rwa [htaken'.target]

/-! ## The head -/

/-- The first ordinal is that of the first entry that has one. -/
theorem firstOrdinal_ok {entries : List ViewEntry} : ∀ {first : Option Int}, c.firstOrdinal entries = .ok first →
    ∀ {n : Nat} {entry : ViewEntry} {o : Int}, entries[n]? = some entry → c.ordinal (c.entryTarget entry) = some o →
      ∃ m entry' o', m ≤ n ∧ entries[m]? = some entry' ∧ c.ordinal (c.entryTarget entry') = some o' ∧
      first = some o' := by
  induction entries with
  | nil =>
    intro first _ n entry o hn
    simp at hn
  | cons e entries ih =>
    intro first h n entry o hn ho
    -- The entries after one without an ordinal.
    have hlater : c.ordinal (c.entryTarget e) = none → c.firstOrdinal entries = .ok first →
        ∃ m entry' o', m ≤ n ∧ (e :: entries)[m]? = some entry' ∧ c.ordinal (c.entryTarget entry') = some o' ∧
          first = some o' := by
      intro hnone hrest
      cases n with
      | zero =>
        cases hn
        rw [hnone] at ho
        cases ho
      | succ n =>
        obtain ⟨m, entry', o', hle, hm, ho', heq⟩ := ih hrest hn ho
        exact ⟨m + 1, entry', o', by omega, hm, ho', heq⟩
    unfold firstOrdinal at h
    split at h
    · next id htarget =>
      split at h
      · cases h
      · next b hb =>
        have hordinal : c.ordinal (c.entryTarget e) = b.ordinal := by
          rw [htarget]
          simp [ordinal, hb]
        split at h
        · next hsome =>
          cases h
          obtain ⟨o', ho'⟩ := Option.isSome_iff_exists.mp hsome
          exact ⟨0, e, o', Nat.zero_le n, rfl, hordinal.trans ho', ho'⟩
        · next hsome => exact hlater (hordinal.trans (by simpa using hsome)) h
    · next hocc =>
      apply hlater _ h
      cases htarget : c.entryTarget e with
      | none => rfl
      | some t =>
        cases t with
        | occ id => exact absurd htarget (hocc id)
        | descriptor viewSeq outputIndex => rfl

theorem runRow_stop {row : IncomingRow} {entry : ViewEntry} (h : (c.runRow row entry p).2 = false) :
    Quiet p (c.runRow row entry p).1 := by
  revert h
  unfold runRow
  split
  · exact nofun
  · split
    · exact fun _ => quiet_count p _ _
    · split
      · exact nofun
      · exact fun _ => quiet_count p _ _
    · split
      · exact fun _ => quiet_count p _ _
      · split
        · exact fun _ => quiet_count p _ _
        · split
          · exact fun _ => (quiet_reject p _ _ _).trans (quiet_count _ _ _)
          · split
            · exact fun _ => (quiet_reject p _ _ _).trans (quiet_count _ _ _)
            · split
              · exact nofun
              · split
                · exact fun _ => (quiet_reject p _ _ _).trans (quiet_count _ _ _)
                · exact nofun

theorem runRows_zero {pairs : List (IncomingRow × ViewEntry)} (h : (c.runRows pairs p).2 = 0) :
    Quiet p (c.runRows pairs p).1 := by
  cases pairs with
  | nil => exact .refl p
  | cons x pairs =>
    obtain ⟨row, entry⟩ := x
    simp only [runRows] at h ⊢
    split at h
    · cases h
    · next hstop =>
      rw [if_neg hstop]
      rw [Bool.not_eq_true] at hstop
      exact runRow_stop hstop

theorem runHead_kind (h : c.runHead p = .ok (some head)) : head.kind = .h1 := by
  unfold runHead at h
  split at h
  · rw [bind_ok] at h
    obtain ⟨first, -, h⟩ := h
    cases first with
    | some o =>
      cases h
      rfl
    | none =>
      injection h with h
      rw [Option.map_eq_some_iff] at h
      obtain ⟨e, -, rfl⟩ := h
      rfl
  · cases h

theorem historyHead_kind {kept : List Binding} {eligible : List IncomingRow}
    (h : historyHead kept eligible = .ok (some head)) : head.kind = .h2 := by
  unfold historyHead at h
  dsimp only at h
  split at h
  · rw [bind_ok] at h
    obtain ⟨hits, -, h⟩ := h
    injection h with h
    split at h
    · rw [Option.map_eq_some_iff] at h
      obtain ⟨b, -, rfl⟩ := h
      rfl
    · cases h
  · cases h

theorem keyedHead_kind (h : c.keyedHead = .ok (some head)) : head.kind = .h3 := by
  unfold keyedHead at h
  split at h
  · split at h
    · cases h
    · rw [bind_ok] at h
      obtain ⟨above, -, h⟩ := h
      injection h with h
      split at h
      · cases h
        rfl
      · cases h
  · cases h

/-- The head of the run if there is one, else the one of the history, else the one of the keys, else none. -/
theorem chooseHead_head (h : c.chooseHead p = .ok q) :
    (∃ head, c.runHead p = .ok head ∧ ∀ x ∈ head, q.head = x) ∧ (q.head = p.head ∨ q.head.kind ≠ .h4) := by
  simp only [chooseHead, bind_ok] at h
  obtain ⟨head, hhead, h⟩ := h
  cases head with
  | some head =>
    cases h
    refine ⟨⟨_, hhead, fun x hx => Option.some.inj hx⟩, .inr ?_⟩
    rw [runHead_kind hhead]
    decide
  | none =>
    refine ⟨⟨none, hhead, fun x hx => by cases hx⟩, ?_⟩
    simp only [bind_ok] at h
    obtain ⟨kept, -, head, hhistory, h⟩ := h
    cases head with
    | some head =>
      cases h
      right
      rw [historyHead_kind hhistory]
      decide
    | none =>
      simp only [bind_ok] at h
      obtain ⟨head, hkeyed, h⟩ := h
      cases head with
      | some head =>
        cases h
        right
        rw [keyedHead_kind hkeyed]
        decide
      | none =>
        cases h
        left
        simp only [Pass.count]
        split <;> split <;> rfl

/-- The evidence of the weak passes. -/
def weakEvidence : List Evidence := [.rank2, .rank3, .aliasForm]

/-- An occurrence is replayed at or after the head, and weak evidence needs a head. -/
structure AtHead (c : Context) (head : Option Int) (_i : Nat) (t : Target) (ev : Option Evidence) : Prop where
  window : ∀ id, t = .occ id → ∃ h ∈ head, ∃ o ∈ c.ordinal (some t), h ≤ o
  headed : ∀ x ∈ ev, x ∈ weakEvidence → head ≠ none

theorem RunLicence.not_weak {ev : Evidence} (h : RunLicence c i t (some ev)) : ev ∉ weakEvidence := by
  obtain ⟨_, _, _, _, _, -, -, -, -, -, -, htaken⟩ := h
  obtain ⟨e, -, -, hev⟩ | ⟨id, b, -, -, ⟨hev, -⟩ | ⟨hev, -⟩⟩ := htaken.proof
  all_goals
    cases hev
    decide

theorem runSearch_licensed (hview : Indexed c.view) : Licensed (RunLicence c) (c.runSearch c.initial) := by
  obtain ⟨q, hgrows, hsame, -, -⟩ := runSearch_grows hview
  exact ((licensed_initial c).grows hgrows fun _ _ _ h => h).sameCore hsame

/-- When the run took a row, it was recorded. -/
theorem runSearch_recorded (hview : Indexed c.view) {start : Nat} {choice : RunChoice}
    (hchoice : c.chooseRun c.starts = some (start, choice))
    (hreplay : ((c.runSearch c.initial).rows i).verdict = .replay) :
    ∃ run, (c.runSearch c.initial).run = some run ∧ run.j = choice.j ∧
      (c.runSearch c.initial).runRecord = some choice.record := by
  obtain ⟨hnone, -⟩ | ⟨start', choice', hchoice', -, hrun, hrecord⟩ := runSearch_run hview
  · rw [runSearch_some _ hchoice] at hnone hreplay
    dsimp only at hnone hreplay
    split at hnone
    · cases hnone
    · next hzero =>
      rw [if_neg hzero, (runRows_zero (Nat.eq_zero_of_not_pos hzero)).verdict] at hreplay
      simp only [initial] at hreplay
      split at hreplay <;> cases hreplay
  · rw [hchoice] at hchoice'
    cases hchoice'
    exact ⟨_, hrun, rfl, hrecord⟩

/-- The head of the run is not above anything that the run took. -/
theorem runHead_le (hinc : RefsIncrease c record) {run : Run} (hrun : p.run = some run)
    (hrecord : p.runRecord = some record) {head : Option Head} (hhead : c.runHead p = .ok head)
    {n : Nat} {entry : ViewEntry}
    (hentry : record.entries[run.j + n]? = some entry) {o : Int} (ho : c.ordinal (c.entryTarget entry) = some o) :
    ∃ h, head = some ⟨.h1, some h⟩ ∧ h ≤ o := by
  unfold runHead at hhead
  rw [hrun, hrecord] at hhead
  dsimp only at hhead
  rw [bind_ok] at hhead
  obtain ⟨first, hfirst, hhead⟩ := hhead
  have hdrop : (record.entries.drop run.j)[n]? = some entry := by rwa [List.getElem?_drop]
  obtain ⟨m, entry', o', hle, hm, ho', rfl⟩ := firstOrdinal_ok hfirst hdrop ho
  cases hhead
  refine ⟨o', rfl, ?_⟩
  rw [List.getElem?_drop] at hm
  obtain heq | hlt := Nat.eq_or_lt_of_le hle
  · subst heq
    rw [hm] at hentry
    cases hentry
    rw [ho] at ho'
    exact le_of_eq (Option.some.inj ho').symm
  · exact le_of_lt (hinc.lt (by omega) hm hentry ho' ho)

theorem chooseHead_atHead (hview : Indexed c.view) (hrefs : ∀ record ∈ c.chosenRecord, RefsIncrease c record)
    (h : c.chooseHead (c.runSearch c.initial) = .ok q) : Licensed (AtHead c q.head.ordinal) q := by
  obtain ⟨⟨head, hhead, hset⟩, -⟩ := chooseHead_head h
  apply Licensed.sameCore _ (chooseHead_headed h).toSameCore
  apply (runSearch_licensed hview).imp
  intro i t ev hlicence hreplay
  constructor
  · rintro id rfl
    obtain ⟨start, choice, n, row, entry, hchoice, -, -, -, hentry, -, htaken⟩ := hlicence
    have hinc := hrefs _ (chosenRecord_eq hchoice)
    obtain ⟨run, hrun, hj, hrecord⟩ := runSearch_recorded hview hchoice hreplay
    obtain ⟨o, ho⟩ := hinc.ordinal (List.mem_of_getElem? hentry) htaken.target
    rw [← hj] at hentry
    obtain ⟨first, rfl, hle⟩ := runHead_le hinc hrun hrecord hhead hentry (htaken.target ▸ ho)
    rw [hset _ rfl]
    exact ⟨first, rfl, o, ho, hle⟩
  · rintro x hx hweak
    cases hx
    exact absurd hweak hlicence.not_weak

/-! ## Whole passes -/

/-- Without uid mode `on`, the strong matches are all emissions. -/
theorem not_strongLicence_occ (hmode : c.mode ≠ .on) {id : Int} :
    ¬ StrongLicence c i (.occ id) ev := by
  rintro ⟨row, -, -, htaken⟩
  cases htaken with
  | uid hon => exact hmode hon

theorem strong_increasing (hmode : c.mode ≠ .on) (h : Increasing c p fun _ => True) :
    Increasing c (c.strong p) fun _ => True := by
  have hold : ∀ {i : Nat} {o : Int}, (i, o) ∈ c.placed (c.strong p) → (i, o) ∈ c.placed p := by
    intro i o hi
    apply (grows_mem_placed (strong_grows p) hi).resolve_right
    rintro ⟨id, ev, hlicence, -⟩
    exact not_strongLicence_occ hmode hlicence
  intro i j o o' hi hj
  exact h i j o o' (hold hi) (hold hj)

theorem StrongLicence.atHead (hmode : c.mode ≠ .on)
    (h : StrongLicence c i t ev) (head : Option Int) : AtHead c head i t ev := by
  constructor
  · rintro id rfl
    exact absurd h (not_strongLicence_occ hmode)
  · intro x hx hweak
    obtain ⟨row, -, -, htaken⟩ := h
    cases htaken with
    | uid hon => exact absurd hon hmode
    | emission =>
      cases hx
      exact absurd hweak (by decide)

/-- What a weak pass accepts lies in the window. -/
theorem UnitLicence.atHead {segments : Bool} {options : List (Nat × List Candidate)}
    (hoptions : Options c segments p options)
    {units : List MatchUnit} (h : UnitLicence units options i t ev) :
    AtHead c p.head.ordinal i t ev := by
  obtain ⟨u, cand, -, -, ⟨l, hl, ho⟩, rfl, -⟩ := h
  obtain ⟨row, -, -, -, -, hoffered⟩ := hoptions _ _ hl
  have hwindow := (hoffered cand ho).window
  simp only [window, decide_eq_true_eq] at hwindow
  constructor
  · rintro id -
    simpa [ordinal, binding?_of_mem (hoffered cand ho).binding] using hwindow
  · intro x _ _ hnone
    obtain ⟨head, hhead, -⟩ := hwindow
    rw [hnone] at hhead
    cases hhead

/-- What holds of the rows once they are decided. -/
theorem decideRows_ordered (hview : Indexed c.view) (hsegmented : Segmented c.view) (hmode : c.mode ≠ .on)
    (hrefs : ∀ record ∈ c.chosenRecord, RefsIncrease c record) {decided : Pass}
    (h : c.decideRows c.initial = .ok decided) :
    Increasing c decided (InOrder c true) ∧ Licensed (AtHead c decided.head.ordinal) decided ∧
      (decided.head.kind = .h4 → decided.head.ordinal = none) := by
  obtain ⟨searched, headed, strong, weak, segments, h⟩ := decideRows_phases h
  obtain ⟨rfl, hheaded, rfl, hweak, hsegments, rfl⟩ := h
  have hsame := (chooseHead_headed hheaded).toSameCore
  have hgrowsStrong := strong_grows (c := c) headed
  obtain ⟨_, _, -, hoptions, hgrows⟩ := weak_grows hweak
  obtain ⟨_, _, -, hoptions', hgrows'⟩ := weak_grows hsegments
  have hquiet := discovery_quiet (c := c) segments
  have hhead : (c.discovery segments).head = headed.head := by
    rw [hquiet.head, hgrows'.head, hgrows.head, hgrowsStrong.head]
  refine ⟨?_, ?_, ?_⟩
  · have hstrong := strong_increasing hmode ((runSearch_increasing hview hrefs).congr hsame)
    have hplain : Increasing c weak fun _ => True := by
      intro i j o o' hi hj _ _
      exact weak_increasing hview hsegmented hweak hstrong i j o o' hi hj nofun nofun
    exact (weak_increasing hview hsegmented hsegments hplain).congr hquiet.toSameCore
  · rw [hhead]
    have hrun := chooseHead_atHead hview hrefs hheaded
    have hstrong := hrun.grows hgrowsStrong fun i t ev hlicence => hlicence.atHead hmode _
    have hplain := hstrong.grows hgrows fun i t ev hlicence => hgrowsStrong.head ▸ hlicence.atHead hoptions
    have hcalls := hplain.grows hgrows' fun i t ev hlicence =>
      (hgrows.head.trans hgrowsStrong.head) ▸ hlicence.atHead hoptions'
    exact hcalls.sameCore hquiet.toSameCore
  · rw [hhead]
    intro hkind
    obtain ⟨-, hsameHead | hother⟩ := chooseHead_head hheaded
    · obtain ⟨q, hsearch, -, hsearched, -⟩ := runSearch_grows hview
      rw [hsameHead, hsearched, hsearch.head]
      rfl
    · exact absurd hkind hother

/-- `finish` keeps the replays that it does not cut. -/
theorem finish_core (p : Pass) (i : Nat) :
    ((c.finish p).rows i).core = (p.rows i).core ∨ ((c.finish p).rows i).core = (.new, none, none) := by
  obtain ⟨hsame, -, -, -⟩ := finish_planned (c := c) p
  rw [hsame.core i]
  cases (cuts_cutting (c := c) p).1.core i with
  | inl hkept => exact .inl hkept
  | inr hcut => exact .inr hcut.2

theorem finish_replay (h : ((c.finish p).rows i).verdict = .replay) :
    ((c.finish p).rows i).core = (p.rows i).core := by
  cases finish_core (c := c) p i with
  | inl hkept => exact hkept
  | inr hcut =>
    have hnew := (RowVerdict.core_eq hcut).1
    rw [h] at hnew
    cases hnew

end Context

/-! ## Classifications -/

/-- The row at `i` replays the occurrence, which stands at the ordinal. -/
def ReplaysAt (snapshot : Snapshot) (rows : List RowVerdict) (i : Nat) (id o : Int) : Prop :=
  ∃ v, rows[i]? = some v ∧ v.verdict = .replay ∧ v.target = some (.occ id) ∧
    (snapshot.binding? id).bind Binding.ordinal = some o

/-- In uid modes off and shadow, and with a record in order, the replays that answer no call follow
the stored order from the head on. Without a head there is no weak evidence. -/
theorem replays_ordered {helpers : Helpers} {salt : Bytes} {messages : List Message}
    {neverStored : Option (Message → Bool)}
    {snapshot : Snapshot} {oracle : Oracle} {mode : UidMode} {result : Classification} (hmode : mode ≠ .on)
    (hrefs :
      ∀ record ∈ (finalContext helpers (buildView helpers salt messages neverStored) snapshot oracle mode).chosenRecord,
      (finalContext helpers (buildView helpers salt messages neverStored) snapshot oracle mode).RefsIncrease record)
    (h : classify helpers (buildView helpers salt messages neverStored) snapshot oracle mode = .ok result) :
    (∀ (i : Nat) (v : RowVerdict) (id : Int), result.rows[i]? = some v → v.verdict = .replay →
      v.target = some (.occ id) →
      ∃ o head, ReplaysAt snapshot result.rows i id o ∧ result.head.ordinal = some head ∧ head ≤ o) ∧
    (∀ row ∈ buildView helpers salt messages neverStored, ∀ row' ∈ buildView helpers salt messages neverStored,
      row.answersCall = false → row'.answersCall = false → row.index < row'.index →
        ∀ id o id' o', ReplaysAt snapshot result.rows row.index id o →
        ReplaysAt snapshot result.rows row'.index id' o' →
          o < o') ∧
    (result.head.kind = .h4 → ∀ v ∈ result.rows, ∀ ev ∈ v.evidence, ev ∉ [Evidence.rank2, .rank3, .aliasForm]) := by
  obtain ⟨r, hr, hrows, hhead, -, -⟩ := classify_pass h
  obtain ⟨decided, hdecided, rfl⟩ := Context.execute_finish hr
  have hview := indexed_buildView helpers salt messages neverStored
  have hsegmented := segmented_buildView helpers salt messages neverStored
  generalize buildView helpers salt messages neverStored = view at *
  obtain ⟨hincreasing, hlicensed, hnone⟩ :=
    Context.decideRows_ordered (c := finalContext helpers view snapshot oracle mode)
    hview hsegmented hmode hrefs hdecided
  have hfinal := (Context.finish_planned (c := finalContext helpers view snapshot oracle mode) decided).2.1
  rw [hfinal] at hhead
  -- A replay of the result is a replay of the decided rows.
  have hrow : ∀ {i : Nat} {v : RowVerdict}, result.rows[i]? = some v → v.verdict = .replay →
      i < view.length ∧ (decided.rows i).verdict = .replay ∧ (decided.rows i).target = v.target := by
    intro i v hv hreplay
    rw [hrows, getElem?_rows] at hv
    obtain ⟨hi, rfl⟩ := hv
    obtain ⟨hverdict, -, htarget⟩ := RowVerdict.core_eq (Context.finish_replay hreplay)
    exact ⟨hi, hverdict.symm.trans hreplay, htarget.symm⟩
  refine ⟨?_, ?_, ?_⟩
  · intro i v id hv hreplay htarget
    obtain ⟨-, hreplay', htarget'⟩ := hrow hv hreplay
    obtain ⟨t, ht, hatHead⟩ := hlicensed.replay hreplay'
    rw [htarget', htarget] at ht
    cases ht
    obtain ⟨head, hhead', o, ho, hle⟩ := hatHead.window id rfl
    exact ⟨o, head, ⟨v, hv, hreplay, htarget, ho⟩, by rw [hhead]; exact hhead', hle⟩
  · rintro row hmem row' hmem' hanswers hanswers' hlt id o id' o' ⟨v, hv, hreplay, htarget, ho⟩
      ⟨v', hv', hreplay', htarget', ho'⟩
    -- The rows that answer no call are the ones that the segments keep in order.
    have hin : ∀ x ∈ view, x.answersCall = false →
        (finalContext helpers view snapshot oracle mode).InOrder true x.index := by
      intro x hx hanswers _ y hy hindex
      rw [hview.injective hy hx hindex]
      exact hanswers
    obtain ⟨hi, hr, ht⟩ := hrow hv hreplay
    obtain ⟨hi', hr', ht'⟩ := hrow hv' hreplay'
    apply hincreasing row.index row'.index o o' _ _ (hin row hmem hanswers) (hin row' hmem' hanswers') hlt
    · exact Context.mem_placed.mpr ⟨hi, hr, by rw [ht, htarget]; exact ho⟩
    · exact Context.mem_placed.mpr ⟨hi', hr', by rw [ht', htarget']; exact ho'⟩
  · intro hkind v hv ev hev hin
    rw [hhead] at hkind
    obtain ⟨i, hv⟩ := List.mem_iff_getElem?.mp hv
    rw [hrows, getElem?_rows] at hv
    obtain ⟨-, rfl⟩ := hv
    cases Context.finish_core (c := finalContext helpers view snapshot oracle mode) decided i with
    | inl hkept =>
      rw [(RowVerdict.core_eq hkept).2.1] at hev
      obtain ⟨t, hatHead⟩ := hlicensed.evidence hev
      exact hatHead.headed ev rfl hin (hnone hkind)
    | inr hcut =>
      rw [(RowVerdict.core_eq hcut).2.1] at hev
      cases hev

/-- One message of the record, and two more that were stored after it. -/
def threeStored : Snapshot :=
  sampleSnapshot [sampleEntry (userMessage "a" none) 1]
    [storedBinding 1 (userMessage "a" none) none none, storedBinding 2 (userMessage "b" none) (some "7") none,
      storedBinding 3 (userMessage "c" none) (some "9") none] (by decide)

def threeMessages : List Message := [userMessage "a" none, userMessage "b" (some "7"), userMessage "c" (some "9")]

def threeReplayed : Except ClassifierError Classification :=
  classify sampleHelpers (buildView sampleHelpers [] threeMessages none) threeStored sampleOracle .shadow

theorem replays_ordered_threeReplayed :
    ∃ result, threeReplayed = .ok result ∧
      result.rows.map (fun v => (v.evidence, v.target)) =
        [(some .runUnkeyed, some (.occ 1)), (some .rank2, some (.occ 2)), (some .rank2, some (.occ 3))] ∧
      ∀ (i : Nat) (v : RowVerdict) (id : Int), result.rows[i]? = some v → v.verdict = .replay →
      v.target = some (.occ id) →
        ∃ o head, ReplaysAt threeStored result.rows i id o ∧ result.head.ordinal = some head ∧ head ≤ o := by
  obtain ⟨result, h⟩ := exists_ok (x := threeReplayed) (by decide +kernel)
  refine ⟨result, h, map_of_ok (fun r => r.rows.map fun v => (v.evidence, v.target)) h (by decide +kernel),
    (replays_ordered (by decide) ?_ h).1⟩
  intro record hrecord
  have hchosen : (finalContext sampleHelpers (buildView sampleHelpers [] threeMessages none) threeStored sampleOracle
      .shadow).chosenRecord = some ⟨.ingest, 1, true, [sampleEntry (userMessage "a" none) 1]⟩ := by decide +kernel
  rw [hchosen] at hrecord
  cases hrecord
  exact ⟨[100], by decide +kernel, List.pairwise_singleton _ _⟩

end Classifier
