import LcmX.ClassifierPhases

/-!
# What the weak passes accept

The options of a row and the units they form. A weak pass grows the state by the
rows of the units that lie in every longest increasing sequence.
-/
namespace Classifier

open IngestLedger Fallible

namespace Context

variable {c : Context} {p q : Pass}

/-! ## The window reads only cores -/

theorem window_congr (hhead : q.head = p.head) (b : Binding) : window q b = window p b := by
  simp only [window, hhead]

theorem placed_congr (h : SameCore p q) : c.placed q = c.placed p := by
  unfold placed
  congr 1
  funext j
  rw [h.verdict, h.target]

theorem position_congr (h : SameCore p q) (hhead : q.head = p.head) (i : Nat) (b : Binding) (outside : List Nat) :
    c.position q i b outside = c.position p i b outside := by
  have hbounds : c.bounds q i outside = c.bounds p i outside := by simp only [bounds, placed_congr h]
  unfold position outsideWindow
  rw [window_congr hhead, hhead, hbounds]

theorem rank3_congr (h : SameCore p q) (row : IncomingRow) (b : Binding) : c.rank3 q row b = c.rank3 p row b := by
  simp only [rank3, h.verdict, h.target]

/-! ## Candidates -/

theorem mem_of_sortedByOrdinal {before : Int → Int → Bool} {l sorted : List Binding}
    (h : sortedByOrdinal before l = .ok sorted) (b : Binding) : b ∈ sorted ↔ b ∈ l := by
  unfold sortedByOrdinal at h
  split at h
  · cases h
  · cases h
    rw [List.mem_insertionSort]

variable {b : Binding} {segments accepted : Bool} {options : List (Nat × List Candidate)}
  {P : Nat → Target → Option Evidence → Prop}

theorem mem_keptBindings : b ∈ c.snapshot.keptBindings ↔ b ∈ c.snapshot.bindings ∧ b.kept = true := by
  simp only [Snapshot.keptBindings, Snapshot.digests, Snapshot.byDigest, List.mem_flatMap,
    List.mem_eraseDups, List.mem_map,
    List.mem_filter, List.mem_insertionSort, decide_eq_true_eq]
  constructor
  · rintro ⟨digest, -, hb, hkept, -⟩
    exact ⟨hb, hkept⟩
  · rintro ⟨hb, hkept⟩
    exact ⟨b.identityDigest, ⟨b, ⟨hb, hkept⟩, rfl⟩, hb, hkept, rfl⟩

theorem mem_segmentCandidates {row : IncomingRow} (h : b ∈ c.segmentCandidates row) :
    row.toolSegment ≠ none ∧ b ∈ c.snapshot.bindings ∧ b.kept = true ∧ b.role = some row.role ∧
      text b.toolCallId = row.toolCallId := by
  have hcall : ∀ b, b ∈ c.byRoleCall row.role row.toolCallId → b ∈ c.snapshot.bindings ∧ b.kept = true ∧
      b.role = some row.role ∧ text b.toolCallId = row.toolCallId := by
    intro b hb
    simpa [byRoleCall] using hb
  unfold segmentCandidates at h
  dsimp only at h
  split at h
  · cases h
  · next hsegment =>
    split at h
    · obtain ⟨d, -, hb⟩ := List.mem_flatMap.mp h
      exact ⟨hsegment, hcall b (List.mem_of_mem_filter hb)⟩
    · exact ⟨hsegment, hcall b (List.mem_of_mem_filter h)⟩

/-- A binding that is weighed for a row: it has the row's known stamp, or it is of the row's call. -/
structure CandidateOf (c : Context) (row : IncomingRow) (b : Binding) : Prop where
  binding : b ∈ c.snapshot.bindings
  kept : b.kept = true
  role : b.role = some row.role
  source : (∃ s ∈ c.knownStamp row, s ∈ c.snapshot.stamps b) ∨ b ∈ c.segmentCandidates row

theorem candidateOf_mem {row : IncomingRow}
    (hb : b ∈ ((c.snapshot.byStamp (c.knownStamp row)).filter (fun b => b.role = some row.role) ++
      c.segmentCandidates row).eraseDups) : CandidateOf c row b := by
  rw [List.mem_eraseDups, List.mem_append] at hb
  cases hb with
  | inl hstamped =>
    rw [List.mem_filter, decide_eq_true_eq] at hstamped
    obtain ⟨hstamped, hrole⟩ := hstamped
    unfold Snapshot.byStamp at hstamped
    split at hstamped
    · cases hstamped
    · next stamp hstamp =>
      obtain ⟨hbinding, hkept⟩ := mem_keptBindings.mp (List.mem_of_mem_filter hstamped)
      exact ⟨hbinding, hkept, hrole, .inl ⟨stamp, hstamp, by simpa using List.of_mem_filter hstamped⟩⟩
  | inr hsegment =>
    obtain ⟨-, hbinding, hkept, hrole, -⟩ := mem_segmentCandidates hsegment
    exact ⟨hbinding, hkept, hrole, .inr hsegment⟩

theorem mem_rowCandidates {row : IncomingRow} {l : List Binding} (h : c.rowCandidates row = .ok l)
    (hb : b ∈ l) : CandidateOf c row b := by
  unfold rowCandidates at h
  rw [mem_of_sortedByOrdinal h] at hb
  exact candidateOf_mem hb

theorem binding?_of_mem (h : b ∈ c.snapshot.bindings) : c.snapshot.binding? b.occId = some b := by
  unfold Snapshot.binding?
  have hnodup := c.snapshot.bindings_nodup
  generalize c.snapshot.bindings = bindings at h hnodup
  induction bindings with
  | nil => cases h
  | cons a bindings ih =>
    rw [List.map_cons, List.nodup_cons] at hnodup
    rw [List.find?_cons]
    split
    · next heq =>
      rw [decide_eq_true_eq] at heq
      cases List.mem_cons.mp h with
      | inl he => rw [he]
      | inr hin => exact absurd (List.mem_map.mpr ⟨b, hin, heq.symm⟩) hnodup.1
    · next hne =>
      cases List.mem_cons.mp h with
      | inl he =>
        subst he
        simp at hne
      | inr hin => exact ih hin hnodup.2

theorem mem_of_binding? {id : Int} (h : c.snapshot.binding? id = some b) :
    b ∈ c.snapshot.bindings ∧ b.occId = id := by
  unfold Snapshot.binding? at h
  exact ⟨List.mem_of_find?_eq_some h, by simpa using List.find?_some h⟩

/-! ## Options -/

/-- A binding that a weak pass may give to a row. -/
structure Offered (c : Context) (p : Pass) (row : IncomingRow) (o : Candidate) :
    Prop extends CandidateOf c row o.binding where
  form : c.matchForm row o.binding ≠ none
  veto : c.veto row o.binding = none
  proof : c.positive row o.binding = true ∨ c.rank3 p row o.binding = true
  window : window p o.binding = true
  position : c.position p row.index o.binding [] = none
  evidence : o.evidence = some (if c.matchForm row o.binding = some .identity then
    (if c.positive row o.binding then .rank2 else .rank3) else .aliasForm)

/-- Weighing a candidate offers only what the licence allows. -/
theorem weigh_offered {row : IncomingRow} {s : Pass × List Candidate} (hquiet : Quiet p s.1)
    (hoffered : ∀ o ∈ s.2, Offered c p row o) (hb : CandidateOf c row b) :
    Quiet p (c.weigh row s b).1 ∧ ∀ o ∈ (c.weigh row s b).2, Offered c p row o := by
  obtain ⟨p', options⟩ := s
  have hremember := hquiet.trans (quiet_remember p' row.index (.occ b.occId))
  have hreject : ∀ reason, Quiet p ((p'.remember row.index (.occ b.occId)).reject row.index (.occ b.occId) reason) :=
    fun reason => hremember.trans (quiet_reject _ _ _ reason)
  simp only [weigh]
  split
  · exact ⟨hquiet, hoffered⟩
  · split
    · exact ⟨hquiet, hoffered⟩
    · split
      · exact ⟨hreject _, hoffered⟩
      · next hveto =>
        split
        · exact ⟨hreject _, hoffered⟩
        · next hwindow =>
          rw [not_not, window_congr hremember.head] at hwindow
          split
          · split
            · have hdefer := quiet_defer (p'.remember row.index (.occ b.occId)) row.index .partialText [.occ b.occId]
              exact ⟨hremember.trans hdefer, hoffered⟩
            · exact ⟨hreject _, hoffered⟩
          · next hform =>
            split
            · exact ⟨hreject _, hoffered⟩
            · split
              · next hproof =>
                rw [rank3_congr hremember.toSameCore] at hproof
                split
                · exact ⟨hreject _, hoffered⟩
                · next hposition =>
                  rw [position_congr hremember.toSameCore hremember.head] at hposition
                  refine ⟨hremember, ?_⟩
                  intro o ho
                  cases List.mem_append.mp ho with
                  | inl hold => exact hoffered o hold
                  | inr hnew =>
                    rw [List.mem_singleton] at hnew
                    subst hnew
                    exact ⟨hb, hform, hveto, hproof, hwindow, hposition, rfl⟩
              · exact ⟨hreject _, hoffered⟩

theorem weigh_foldl {row : IncomingRow} (l : List Binding)
    (hl : ∀ b ∈ l, CandidateOf c row b) :
    ∀ s : Pass × List Candidate, Quiet p s.1 → (∀ o ∈ s.2, Offered c p row o) →
      Quiet p (l.foldl (c.weigh row) s).1 ∧ ∀ o ∈ (l.foldl (c.weigh row) s).2, Offered c p row o := by
  induction l with
  | nil => exact fun s hquiet hoffered => ⟨hquiet, hoffered⟩
  | cons b l ih =>
    intro s hquiet hoffered
    obtain ⟨hquiet, hoffered⟩ := weigh_offered hquiet hoffered (hl b List.mem_cons_self)
    exact ih (fun x hx => hl x (List.mem_cons_of_mem _ hx)) _ hquiet hoffered

/-- The options of a pass: each belongs to a new row of its kind. -/
def Options (c : Context) (segments : Bool) (p : Pass) (options : List (Nat × List Candidate)) : Prop :=
  ∀ i l, (i, l) ∈ options → ∃ row ∈ c.view, i = row.index ∧ row.toolSegment.isSome = segments ∧
    (p.rows i).verdict = .new ∧ ∀ o ∈ l, Offered c p row o

/-- Collecting only counts, and returns options that the licence allows. -/
theorem collect_options (rows : List IncomingRow) (hrows : ∀ row ∈ rows, row ∈ c.view) :
    ∀ {p' q : Pass} {options : List (Nat × List Candidate)}, Quiet p p' →
      c.collect segments rows p' = .ok (q, options) →
      Quiet p q ∧ Options c segments p options := by
  induction rows with
  | nil =>
    intro p' q options hquiet h
    cases h
    exact ⟨hquiet, fun i l hin => by cases hin⟩
  | cons row rows ih =>
    replace ih := @ih fun r hr => hrows r (List.mem_cons_of_mem _ hr)
    intro p' q options hquiet h
    unfold collect at h
    split at h
    · exact ih hquiet h
    · next hmine =>
      rw [not_or, not_not, not_not] at hmine
      simp only [bind_ok] at h
      obtain ⟨candidates, hcandidates, h⟩ := h
      obtain ⟨hquiet', hoffered⟩ := weigh_foldl (p := p) candidates (fun b hb => mem_rowCandidates hcandidates hb)
        (p'.count .rowCandidatePairs candidates.length, []) (hquiet.trans (quiet_count _ _ _)) (by simp)
      obtain ⟨⟨q', rest⟩, hcollect, h⟩ := h
      cases h
      obtain ⟨hquietq, hoptions⟩ := ih hquiet' hcollect
      refine ⟨hquietq, ?_⟩
      intro i l hin
      cases List.mem_cons.mp hin with
      | inl hfirst =>
        cases hfirst
        have hnew : (p'.rows row.index).verdict = .new := by
          have hundecided := hmine.2
          simp only [undecided, decide_eq_true_eq] at hundecided
          exact hundecided.1
        rw [hquiet.verdict] at hnew
        exact ⟨row, hrows row List.mem_cons_self, rfl, hmine.1, hnew, hoffered⟩
      | inr hlater => exact hoptions i l hlater

/-! ## Units -/

def OptionOf (options : List (Nat × List Candidate)) (i : Nat) (o : Candidate) : Prop := ∃ l, (i, l) ∈ options ∧ o ∈ l

theorem optionOf_optionsAt {i : Nat} {o : Candidate} (h : o ∈ optionsAt options i) :
    OptionOf options i o := by
  unfold optionsAt at h
  cases hfind : options.find? fun x => x.1 = i with
  | none => simp [hfind] at h
  | some x =>
    rw [hfind] at h
    have hi : x.1 = i := by simpa using List.find?_some hfind
    exact ⟨x.2, hi ▸ List.mem_of_find?_eq_some hfind, h⟩

/-- A row of a unit: already a replay of this binding, or offered it. -/
def Mapped (p : Pass) (options : List (Nat × List Candidate)) (i : Nat) (o : Candidate) : Prop :=
  ((p.rows i).verdict = .replay ∧ (p.rows i).target = some (.occ o.binding.occId)) ∨ OptionOf options i o

theorem mapped_choices {i : Nat} {o : Candidate} (h : o ∈ c.choices p options i) :
    Mapped p options i o := by
  unfold choices at h
  split at h
  · next id hverdict htarget =>
    rw [List.mem_map] at h
    obtain ⟨b, hb, rfl⟩ := h
    rw [Option.mem_toList] at hb
    exact .inl ⟨hverdict, by rw [htarget, (mem_of_binding? hb).2]⟩
  · exact .inr (optionOf_optionsAt h)

/-- The answers map the indexes to candidates that were offered. -/
theorem mapped_answers {stored : List Binding} (indexes : List Nat) :
    ∀ {answered : List Int} {mapping : List (Nat × Candidate)},
      c.answers p options stored indexes answered = some mapping →
      mapping.map Prod.fst = indexes ∧ ∀ m ∈ mapping, Mapped p options m.1 m.2 := by
  induction indexes with
  | nil =>
    intro answered mapping h
    cases h
    simp
  | cons i indexes ih =>
    intro answered mapping h
    unfold answers at h
    dsimp only at h
    split at h
    · cases h
    · next b hb =>
      rw [Option.map_eq_some_iff] at h
      obtain ⟨rest, hrest, rfl⟩ := h
      obtain ⟨hkeys, hmapped⟩ := ih hrest
      have hhit := List.find?_some hb
      simp only [decide_eq_true_eq, List.any_eq_true] at hhit
      obtain ⟨⟨o, ho, hbinding⟩, -⟩ := hhit
      refine ⟨by simp [hkeys], ?_⟩
      intro m hm
      cases List.mem_cons.mp hm with
      | inl hfirst =>
        subst hfirst
        cases hfind : (c.choices p options i).find? fun o => o.binding = b with
        | none =>
          rw [List.find?_eq_none] at hfind
          exact absurd hbinding (by simpa using hfind o ho)
        | some o' => exact mapped_choices (List.mem_of_find?_eq_some hfind)
      | inr hlater => exact hmapped m hlater

/-- What a unit is made of; `u.start` is a row of its own or the assistant of a segment. -/
structure UnitOf (c : Context) (segments : Bool) (p : Pass) (options : List (Nat × List Candidate))
    (u : MatchUnit) : Prop where
  mapped : ∀ m ∈ u.mapping, Mapped p options m.1 m.2
  start : ∃ o rest, u.mapping = (u.start, o) :: rest ∧ o.binding.ordinal = some u.ordinal ∧
    ((rest = [] ∧ OptionOf options u.start o) ∨
      (segments = true ∧ rest.map Prod.fst = (c.segment u.start).drop 1 ∧
        c.position p u.start o.binding (c.segment u.start) = none))

theorem unitOf_segmentUnits {start : Nat} {u : MatchUnit}
    (h : u ∈ c.segmentUnits p options start) : UnitOf c true p options u := by
  unfold segmentUnits at h
  dsimp only at h
  split at h
  · cases h
  · rw [List.mem_filterMap] at h
    obtain ⟨assistant, hassistant, h⟩ := h
    simp only [Option.bind_eq_bind, Option.bind_eq_some_iff] at h
    obtain ⟨mapping, hmapping, ordinal, hordinal, h⟩ := h
    split at h
    · next hposition =>
      cases h
      obtain ⟨hkeys, hmapped⟩ := mapped_answers _ hmapping
      constructor
      · intro m hm
        cases List.mem_cons.mp hm with
        | inl hfirst =>
          subst hfirst
          exact mapped_choices hassistant
        | inr hlater => exact hmapped m hlater
      · exact ⟨assistant, mapping, rfl, hordinal, .inr ⟨rfl, hkeys, Option.isNone_iff_eq_none.mp hposition⟩⟩
    · cases h

theorem unitOf_units {u : MatchUnit}
    (h : u ∈ c.units segments p options) : UnitOf c segments p options u := by
  unfold units at h
  dsimp only at h
  cases List.mem_append.mp h with
  | inl hsegment =>
    split at hsegment
    · next hsegments =>
      obtain ⟨start, -, hu⟩ := List.mem_flatMap.mp hsegment
      rw [hsegments]
      exact unitOf_segmentUnits hu
    · cases hsegment
  | inr hsingle =>
    obtain ⟨⟨i, l⟩, hin, hu⟩ := List.mem_flatMap.mp hsingle
    obtain ⟨o, ho, hu⟩ := List.mem_filterMap.mp hu
    rw [Option.map_eq_some_iff] at hu
    obtain ⟨ordinal, hordinal, rfl⟩ := hu
    have hoption : OptionOf options i o := ⟨l, List.mem_of_mem_filter hin, ho⟩
    constructor
    · intro m hm
      rw [List.mem_singleton] at hm
      subst hm
      exact .inr hoption
    · exact ⟨o, [], rfl, hordinal, .inl ⟨rfl, hoption⟩⟩

theorem mem_setUnit {l : List MatchUnit} {u v : MatchUnit} (h : v ∈ setUnit l u) : v = u ∨ v ∈ l := by
  unfold setUnit at h
  split at h
  · obtain ⟨w, hw, heq⟩ := List.mem_map.mp h
    split at heq
    · exact .inl heq.symm
    · exact .inr (heq ▸ hw)
  · cases List.mem_append.mp h with
    | inl hin => exact .inr hin
    | inr hin => exact .inl (List.mem_singleton.mp hin)

theorem mem_sortedUnits {l : List MatchUnit} {v : MatchUnit} (h : v ∈ sortedUnits l) : v ∈ l := by
  have hfold : ∀ (l acc : List MatchUnit), v ∈ l.foldl setUnit acc → v ∈ acc ∨ v ∈ l := by
    intro l
    induction l with
    | nil => exact fun acc h => .inl h
    | cons u l ih =>
      intro acc h
      cases ih _ h with
      | inl hacc =>
        cases mem_setUnit hacc with
        | inl he => exact .inr (he ▸ List.mem_cons_self)
        | inr hin => exact .inl hin
      | inr hin => exact .inr (List.mem_cons_of_mem _ hin)
  rw [sortedUnits, List.mem_insertionSort] at h
  cases hfold l [] h with
  | inl hnil => cases hnil
  | inr hin => exact hin

theorem mem_judged {units : List MatchUnit} {u : MatchUnit} (h : (u, accepted) ∈ judged units) : u ∈ units := by
  unfold judged at h
  dsimp only at h
  obtain ⟨⟨v, fg⟩, hin, heq⟩ := List.mem_map.mp h
  cases heq
  exact (List.of_mem_zip hin).1

/-! ## Acceptance -/

/-- The accepted units of a weak pass. -/
def UnitLicence (units : List MatchUnit) (options : List (Nat × List Candidate)) (i : Nat) (t : Target)
    (ev : Option Evidence) : Prop :=
  ∃ u o, (u, true) ∈ judged units ∧ (i, o) ∈ u.mapping ∧ OptionOf options i o ∧
    t = .occ o.binding.occId ∧ ev = o.evidence

theorem commitRow_grows
    (hoptions : Options c segments p options) (hgrows : Grows P p q) {m : Nat × Candidate}
    (hmapped : Mapped p options m.1 m.2)
    (hlicence : accepted = true → OptionOf options m.1 m.2 → P m.1 (.occ m.2.binding.occId) m.2.evidence) :
    Grows P q (commitRow accepted q m) := by
  unfold commitRow
  split
  · exact .refl q
  · next hnotReplay =>
    split
    · next haccepted =>
      -- A row that was a replay before the pass is one still.
      cases hmapped with
      | inl hreplay =>
        obtain hsame | ⟨hnew, -⟩ := hgrows.core m.1
        · have hverdict := (RowVerdict.core_eq hsame).1
          rw [hreplay.1] at hverdict
          exact absurd hverdict hnotReplay
        · rw [hreplay.1] at hnew
          cases hnew
      | inr hoption =>
        obtain ⟨l, hl, ho⟩ := hoption
        obtain ⟨row, -, -, -, hnew, -⟩ := hoptions _ _ hl
        obtain hsame | ⟨-, t, ev, -, -, hcore, -⟩ := hgrows.core m.1
        · have hverdict := (RowVerdict.core_eq hsame).1
          rw [hnew] at hverdict
          exact grows_accept hverdict (hlicence haccepted ⟨l, hl, ho⟩)
        · have hverdict := (RowVerdict.core_eq hcore).1
          exact absurd hverdict hnotReplay
    · exact .quiet (quiet_reject q _ _ _)

theorem commit_grows
    (hoptions : Options c segments p options) (mapping : List (Nat × Candidate))
    (hmapped : ∀ m ∈ mapping, Mapped p options m.1 m.2)
    (hlicence : ∀ m ∈ mapping, accepted = true → OptionOf options m.1 m.2 →
      P m.1 (.occ m.2.binding.occId) m.2.evidence) :
    ∀ {q : Pass}, Grows P p q → Grows P p (mapping.foldl (commitRow accepted) q) := by
  induction mapping with
  | nil => exact fun h => h
  | cons m mapping ih =>
    intro q h
    apply ih (fun x hx => hmapped x (List.mem_cons_of_mem _ hx)) fun x hx => hlicence x (List.mem_cons_of_mem _ hx)
    exact h.trans (commitRow_grows hoptions h (hmapped m List.mem_cons_self) (hlicence m List.mem_cons_self))

theorem commits_grow
    (hoptions : Options c segments p options) (judgements : List (MatchUnit × Bool))
    (hmapped : ∀ u ∈ judgements, ∀ m ∈ u.1.mapping, Mapped p options m.1 m.2)
    (hlicence : ∀ u ∈ judgements, ∀ m ∈ u.1.mapping, u.2 = true → OptionOf options m.1 m.2 →
      P m.1 (.occ m.2.binding.occId) m.2.evidence) :
    ∀ {q : Pass}, Grows P p q → Grows P p (judgements.foldl commit q) := by
  induction judgements with
  | nil => exact fun h => h
  | cons u judgements ih =>
    intro q h
    apply ih (fun x hx => hmapped x (List.mem_cons_of_mem _ hx)) fun x hx => hlicence x (List.mem_cons_of_mem _ hx)
    exact commit_grows hoptions u.1.mapping (hmapped u List.mem_cons_self) (hlicence u List.mem_cons_self) h

/-- A weak pass collects options, forms units, and accepts rows of the units it judges. -/
theorem weak_grows {r : Pass} (h : c.weak segments p = .ok r) :
    ∃ q options, Quiet p q ∧ Options c segments p options ∧
      Grows (UnitLicence (sortedUnits (c.units segments q options)) options) p r := by
  simp only [weak, bind_ok] at h
  obtain ⟨⟨q, options⟩, hcollect, h⟩ := h
  cases h
  obtain ⟨hquiet, hoptions⟩ := collect_options c.view (fun _ h => h) (.refl p) hcollect
  have hunit : ∀ u ∈ judged (sortedUnits (c.units segments q options)), UnitOf c segments q options u.1 :=
    fun u hu => unitOf_units (mem_sortedUnits (mem_judged hu))
  refine ⟨q, options, hquiet, hoptions, ?_⟩
  apply commits_grow hoptions
  · intro u hu m hm
    cases (hunit u hu).mapped m hm with
    | inl hreplay =>
      rw [hquiet.verdict, hquiet.target] at hreplay
      exact .inl hreplay
    | inr hoption => exact .inr hoption
  · rintro ⟨u, accepted⟩ hu m hm haccepted hoption
    cases haccepted
    exact ⟨u, m.2, hu, hm, hoption, rfl, rfl⟩
  · exact .quiet (hquiet.trans (quiet_count _ _ _))

end Context

end Classifier
