import LcmX.ClassifierSegments

/-!
# The gaps between placements

A weak pass accepts inside the gaps between the rows that are placed already, and
the units that it accepts increase. So it keeps the placements in order, but for
the tool results, which follow their assistant.
-/
namespace Classifier

open IngestLedger Fallible

/-! ## Tool results in the view -/

/-- A tool result whose call is in the view. -/
def IncomingRow.answersCall (row : IncomingRow) : Bool := row.role = "tool" ∧ row.toolSegment.isSome

/-- A row of a segment is the assistant that opens it or a later tool result. -/
def Segmented (view : List IncomingRow) : Prop :=
  ∀ row ∈ view, ∀ start, row.toolSegment = some start →
    (row.role = "tool" ∧ start < row.index) ∨ (row.role = "assistant" ∧ start = row.index)

theorem not_opens {m : Message} (htool : Helpers.role m = "tool") :
    ¬ (Helpers.role m = "assistant" ∧ m.toolCalls ≠ []) := by simp [htool]

theorem nextSegment_nil {i : Nat} {m : Message} {calls : Calls} (htool : Helpers.role m = "tool")
    (hcid : calls (text m.toolCallId) = []) : nextSegment i m calls = (none, calls) := by
  simp only [nextSegment, if_pos htool, if_neg (not_opens htool), hcid]

theorem nextSegment_cons {i start : Nat} {rest : List Nat} {m : Message} {calls : Calls}
    (htool : Helpers.role m = "tool")
    (hcid : calls (text m.toolCallId) = start :: rest) :
    nextSegment i m calls = (some start, Function.update calls (text m.toolCallId) rest) := by
  simp only [nextSegment, if_pos htool, if_neg (not_opens htool), hcid]

/-- The segment of a tool row starts before it, that of an assistant row at the row. -/
theorem nextSegment_spec {i : Nat} (m : Message) {calls : Calls} (hcalls : ∀ cid, ∀ s ∈ calls cid, s < i) :
    (∀ cid, ∀ s ∈ (nextSegment i m calls).2 cid, s < i + 1) ∧
      ∀ s, (nextSegment i m calls).1 = some s →
        (Helpers.role m = "tool" ∧ s < i) ∨ (Helpers.role m = "assistant" ∧ s = i) := by
  have hold : ∀ cid, ∀ s ∈ calls cid, s < i + 1 := fun cid s hs => Nat.lt_succ_of_lt (hcalls cid s hs)
  by_cases htool : Helpers.role m = "tool"
  · cases hcid : calls (text m.toolCallId) with
    | nil =>
      rw [nextSegment_nil htool hcid]
      exact ⟨hold, nofun⟩
    | cons start rest =>
      rw [nextSegment_cons htool hcid]
      constructor
      · intro cid s hs
        dsimp only at hs
        by_cases heq : cid = text m.toolCallId
        · subst heq
          rw [Function.update_self] at hs
          exact hold _ s (hcid ▸ List.mem_cons_of_mem _ hs)
        · rw [Function.update_of_ne heq] at hs
          exact hold cid s hs
      · intro s hs
        cases hs
        exact .inl ⟨htool, hcalls _ start (hcid ▸ List.mem_cons_self)⟩
  · simp only [nextSegment, if_neg htool]
    split
    · next hopens =>
      constructor
      · intro cid s hs
        dsimp only at hs
        split at hs
        · cases List.mem_cons.mp hs with
          | inl he => omega
          | inr hin => exact hold cid s hin
        · exact hold cid s hs
      · intro s hs
        cases hs
        exact .inr ⟨hopens.1, rfl⟩
    · exact ⟨hold, nofun⟩

theorem segmented_buildRows (h : Helpers) (salt : Bytes) (neverStored : Option (Message → Bool))
    (messages : List Message) :
    ∀ start calls, (∀ cid, ∀ s ∈ calls cid, s < start) →
      Segmented (buildRows h salt neverStored start calls messages) := by
  induction messages with
  | nil =>
    intro start calls _ row hrow
    cases hrow
  | cons m messages ih =>
    intro start calls hcalls row hrow
    obtain ⟨hnext, hsegment⟩ := nextSegment_spec m hcalls
    rw [buildRows] at hrow
    cases List.mem_cons.mp hrow with
    | inl he =>
      subst he
      exact hsegment
    | inr hin => exact ih _ _ hnext row hin

theorem segmented_buildView (h : Helpers) (salt : Bytes) (messages : List Message)
    (neverStored : Option (Message → Bool)) :
    Segmented (buildView h salt messages neverStored) :=
  segmented_buildRows h salt neverStored messages 0 _ nofun

namespace Context

/-! ## Accepted units increase -/

open LongestIncreasing

/-- The elements of the test: the ordinal of each unit with its two lengths. -/
def unitLevels (units : List MatchUnit) : List (Int × Nat × Nat) :=
  let values := units.map MatchUnit.ordinal
  values.zip ((lengths values).zip (lengths (values.reverse.map (-·))).reverse)

theorem levels_units (units : List MatchUnit) : Levels (unitLevels units) :=
  levels_lengths _ fun _ _ h => Int.neg_lt_neg h

def longestUnits (units : List MatchUnit) : Nat := (lengths (units.map MatchUnit.ordinal)).foldl max 0

theorem getElem?_judged {units : List MatchUnit} {n : Nat} {u : MatchUnit} (h : (judged units)[n]? = some (u, true)) :
    ∃ f g, units[n]? = some u ∧ Levels.Critical (unitLevels units) (longestUnits units) n (u.ordinal, f, g) := by
  unfold judged at h
  dsimp only at h
  rw [List.getElem?_map, Option.map_eq_some_iff] at h
  obtain ⟨⟨v, f, g⟩, hzip, heq⟩ := h
  rw [Prod.mk.injEq] at heq
  obtain ⟨rfl, hcritical⟩ := heq
  rw [List.getElem?_zip_eq_some] at hzip
  obtain ⟨hunit, hlengths⟩ := hzip
  dsimp only at hunit hlengths
  simp only [decide_eq_true_eq] at hcritical
  have hfpos : 0 < f := lengths_pos (List.getElem?_zip_eq_some.mp hlengths).1
  refine ⟨f, g, hunit, ?_, ?_, ?_⟩
  · rw [unitLevels, List.getElem?_zip_eq_some, List.getElem?_map, hunit]
    exact ⟨rfl, hlengths⟩
  · have hsum : f + g - 1 = longestUnits units := hcritical.1
    dsimp only
    omega
  · -- The count of the level is one, so the place is the only one.
    intro j y hy hlevel hsum
    rw [unitLevels, List.getElem?_zip_eq_some] at hy
    have hcount := hcritical.2
    rw [List.count_eq_countP, List.countP_map, List.countP_filter] at hcount
    apply countP_one_unique hcount hy.2 hlengths
    · simp only [Function.comp_apply, Bool.and_eq_true, beq_iff_eq, decide_eq_true_eq]
      have hlong : longestUnits units = (lengths (units.map MatchUnit.ordinal)).foldl max 0 := rfl
      exact ⟨hlevel, by omega⟩
    · simp only [Function.comp_apply, Bool.and_eq_true, beq_iff_eq, decide_eq_true_eq]
      exact ⟨trivial, hcritical.1⟩

/-- The units that are accepted increase. -/
theorem judged_increasing (units : List MatchUnit) {m n : Nat} {u v : MatchUnit} (hmn : m < n)
    (hu : (judged units)[m]? = some (u, true)) (hv : (judged units)[n]? = some (v, true)) : u.ordinal < v.ordinal := by
  obtain ⟨f, g, -, hucritical⟩ := getElem?_judged hu
  obtain ⟨f', g', -, hvcritical⟩ := getElem?_judged hv
  have hmax : ∀ x ∈ unitLevels units, x.2.1 ≤ longestUnits units := by
    intro x hx
    exact le_foldl_max (List.of_mem_zip (List.of_mem_zip hx).2).1 0
  have hpos : ∀ x ∈ unitLevels units, 0 < x.2.1 := by
    intro x hx
    obtain ⟨k, hk⟩ := List.mem_iff_getElem?.mp (List.of_mem_zip (List.of_mem_zip hx).2).1
    exact lengths_pos hk
  exact (levels_units units).critical_lt hmax hpos hucritical hvcritical hmn

theorem sortedUnits_pairwise (l : List MatchUnit) : (sortedUnits l).Pairwise unitBefore := by
  have htotal : Std.Total unitBefore := ⟨fun u v => by unfold unitBefore; omega⟩
  have htrans : IsTrans MatchUnit unitBefore := ⟨fun u v w => by unfold unitBefore; omega⟩
  exact List.pairwise_insertionSort unitBefore _

/-- Two accepted units in view order have increasing ordinals. -/
theorem accepted_increasing {l : List MatchUnit} {u v : MatchUnit} (hu : (u, true) ∈ judged (sortedUnits l))
    (hv : (v, true) ∈ judged (sortedUnits l)) (hlt : u.start < v.start) : u.ordinal < v.ordinal := by
  obtain ⟨m, hm⟩ := List.mem_iff_getElem?.mp hu
  obtain ⟨n, hn⟩ := List.mem_iff_getElem?.mp hv
  obtain ⟨_, _, hum, -⟩ := getElem?_judged hm
  obtain ⟨_, _, hvn, -⟩ := getElem?_judged hn
  obtain hmn | hmn | hmn := Nat.lt_trichotomy m n
  · exact judged_increasing _ hmn hm hn
  · subst hmn
    rw [hum] at hvn
    cases hvn
    omega
  · -- The sorted order would put them the other way round.
    have hbefore : unitBefore v u := by
      obtain ⟨hmlen, rfl⟩ := List.getElem?_eq_some_iff.mp hum
      obtain ⟨hnlen, rfl⟩ := List.getElem?_eq_some_iff.mp hvn
      exact List.pairwise_iff_getElem.mp (sortedUnits_pairwise l) n m hnlen hmlen hmn
    unfold unitBefore at hbefore
    omega

/-! ## The gaps between placements -/

variable {c : Context} {p q : Pass}

theorem mem_placed {i : Nat} {o : Int} : (i, o) ∈ c.placed p ↔
    i < c.view.length ∧ (p.rows i).verdict = .replay ∧ c.ordinal (p.rows i).target = some o := by
  simp only [placed, List.mem_filterMap, List.mem_range, Option.ite_none_right_eq_some, Option.map_eq_some_iff]
  constructor
  · rintro ⟨j, hj, hreplay, o', ho', heq⟩
    cases heq
    exact ⟨hj, hreplay, ho'⟩
  · rintro ⟨hi, hreplay, ho⟩
    exact ⟨i, hi, hreplay, o, ho, rfl⟩

theorem placed_sorted (c : Context) (p : Pass) : (c.placed p).Pairwise fun a b => a.1 < b.1 := by
  unfold placed
  rw [List.pairwise_filterMap]
  apply List.pairwise_lt_range.imp
  intro i j hij a ha b hb
  simp only [Option.ite_none_right_eq_some, Option.map_eq_some_iff] at ha hb
  obtain ⟨-, o, -, rfl⟩ := ha
  obtain ⟨-, o', -, rfl⟩ := hb
  exact hij

/-- The placements of the chosen rows increase in view order. -/
def Increasing (c : Context) (p : Pass) (chosen : Nat → Prop) : Prop :=
  ∀ i j o o', (i, o) ∈ c.placed p → (j, o') ∈ c.placed p → chosen i → chosen j → i < j → o < o'

theorem Increasing.congr {chosen : Nat → Prop} (h : Increasing c p chosen) (hsame : SameCore p q) :
    Increasing c q chosen := by
  intro i j o o' hi hj
  rw [placed_congr hsame] at hi hj
  exact h i j o o' hi hj

theorem Increasing.pairwise {outside : List Nat} (h : Increasing c p (· ∉ outside)) (P : Nat → Bool)
    (hP : ∀ i, P i = true → i ∉ outside) : ((c.placed p).filter fun x => P x.1).Pairwise fun a b => a.2 < b.2 := by
  have hsorted := (placed_sorted c p).filter fun x => P x.1
  apply hsorted.imp_of_mem
  intro a b ha hb hab
  rw [List.mem_filter] at ha hb
  exact h a.1 b.1 a.2 b.2 ha.1 hb.1 (hP _ ha.2) (hP _ hb.2) hab

theorem le_getLast? {l : List (Nat × Int)} (h : l.Pairwise fun a b => a.2 < b.2) {x : Nat × Int} (hx : x ∈ l) :
    ∃ y, l.getLast? = some y ∧ x.2 ≤ y.2 := by
  induction l using List.reverseRecOn with
  | nil => cases hx
  | append_singleton l y _ =>
    refine ⟨y, List.getLast?_concat, ?_⟩
    cases List.mem_append.mp hx with
    | inl hin => exact le_of_lt ((List.pairwise_append.mp h).2.2 x hin y List.mem_cons_self)
    | inr hin => rw [List.mem_singleton.mp hin]

theorem head?_le {l : List (Nat × Int)} (h : l.Pairwise fun a b => a.2 < b.2) {x : Nat × Int} (hx : x ∈ l) :
    ∃ y, l.head? = some y ∧ y.2 ≤ x.2 := by
  cases l with
  | nil => cases hx
  | cons y l =>
    refine ⟨y, rfl, ?_⟩
    cases List.mem_cons.mp hx with
    | inl he => rw [he]
    | inr hin => exact le_of_lt (List.rel_of_pairwise_cons h hin)

/-- A binding that fits the gap of a row is above everything placed before the row and below everything after it. -/
theorem position_gap {i : Nat} {b : Binding} {outside : List Nat} {o : Int} (h : c.position p i b outside = none)
    (ho : b.ordinal = some o) (hinc : Increasing c p (· ∉ outside)) {j : Nat} {o' : Int} (hj : (j, o') ∈ c.placed p)
    (hout : j ∉ outside) : (j < i → o' < o) ∧ (i < j → o < o') := by
  unfold position at h
  split at h
  · cases h
  · dsimp only at h
    split at h
    · cases h
    · next hgap =>
      rw [ho] at hgap
      simp only [Option.mem_def, Option.some.injEq, exists_eq_left', not_or, not_exists, not_and, not_le] at hgap
      obtain ⟨hleft, hright⟩ := hgap
      simp only [bounds, Option.map_eq_some_iff] at hleft hright
      constructor
      · intro hji
        -- The last placement before the row is not below this one.
        have hpairs := hinc.pairwise (fun k => k < i ∧ k ∉ outside) fun k hk => (of_decide_eq_true hk).2
        have hmem : (j, o') ∈ (c.placed p).filter fun x => x.1 < i ∧ x.1 ∉ outside := by
          simp [List.mem_filter, hj, hji, hout]
        obtain ⟨y, hy, hle⟩ := le_getLast? hpairs hmem
        exact hle.trans_lt (hleft _ ⟨y, hy, rfl⟩)
      · intro hij
        have hpairs := hinc.pairwise (fun k => i < k ∧ k ∉ outside) fun k hk => (of_decide_eq_true hk).2
        have hmem : (j, o') ∈ (c.placed p).filter fun x => i < x.1 ∧ x.1 ∉ outside := by
          simp [List.mem_filter, hj, hij, hout]
        obtain ⟨y, hy, hle⟩ := head?_le hpairs hmem
        exact (hright _ ⟨y, hy, rfl⟩).trans_le hle

/-! ## Weak placements -/

/-- The rows that a weak pass places in order: all of them, or those that answer no call. -/
def InOrder (c : Context) (segments : Bool) (i : Nat) : Prop :=
  segments = true → ∀ row ∈ c.view, row.index = i → row.answersCall = false

theorem segment_sorted (hview : Indexed c.view) (start : Nat) : (c.segment start).Pairwise (· < ·) := by
  unfold segment
  rw [List.pairwise_map]
  apply List.Pairwise.filter
  rw [List.pairwise_iff_getElem]
  intro i j hi hj hij
  rw [hview i _ (List.getElem?_eq_getElem hi), hview j _ (List.getElem?_eq_getElem hj)]
  exact hij

/-- The rows of a segment after its start answer calls. -/
theorem answersCall_of_segment (hview : Indexed c.view) (hsegmented : Segmented c.view) {start i : Nat}
    (h : i ∈ c.segment start) (hne : i ≠ start) : ∃ row ∈ c.view, row.index = i ∧ row.answersCall = true := by
  obtain ⟨row, hrow, hsegment⟩ := (mem_segment hview).mp h
  have hindex := hview i row hrow
  refine ⟨row, List.mem_of_getElem? hrow, hindex, ?_⟩
  cases hsegmented row (List.mem_of_getElem? hrow) start hsegment with
  | inl htool => simp [IncomingRow.answersCall, htool.1, hsegment]
  | inr hstart => omega

theorem not_mem_drop_segment (hview : Indexed c.view) (hsegmented : Segmented c.view) (start : Nat) :
    start ∉ (c.segment start).drop 1 := by
  intro hin
  have hsorted := segment_sorted hview start
  have hall : ∀ i ∈ c.segment start, start ≤ i := by
    intro i hi
    obtain ⟨row, hrow, hsegment⟩ := (mem_segment hview).mp hi
    have hindex := hview i row hrow
    have hcases := hsegmented row (List.mem_of_getElem? hrow) start hsegment
    omega
  cases hlist : c.segment start with
  | nil => simp [hlist] at hin
  | cons i l =>
    rw [hlist] at hin hsorted hall
    have hlt : i < start := List.rel_of_pairwise_cons hsorted hin
    have hle := hall i List.mem_cons_self
    omega

theorem grows_mem_placed {P : Nat → Target → Option Evidence → Prop} (h : Grows P p q) {i : Nat} {o : Int}
    (hi : (i, o) ∈ c.placed q) : (i, o) ∈ c.placed p ∨ ∃ id ev, P i (.occ id) ev ∧
      c.ordinal (some (.occ id)) = some o := by
  obtain ⟨hlt, hreplay, hordinal⟩ := Context.mem_placed.mp hi
  obtain hsame | ⟨-, t, ev, hlicence, -, hcore, -⟩ := h.core i
  · obtain ⟨hverdict, -, htarget⟩ := RowVerdict.core_eq hsame
    rw [hverdict] at hreplay
    rw [htarget] at hordinal
    exact .inl (Context.mem_placed.mpr ⟨hlt, hreplay, hordinal⟩)
  · have htarget := (RowVerdict.core_eq hcore).2.2
    rw [htarget] at hordinal
    cases t with
    | occ id => exact .inr ⟨id, ev, hlicence, hordinal⟩
    | descriptor viewSeq outputIndex => cases hordinal

/-- The row of a unit that counts for the order is its start, and its binding fits the gap there. -/
theorem unit_place (hview : Indexed c.view) (hsegmented : Segmented c.view) {segments : Bool}
    {options : List (Nat × List Candidate)} (hquiet : Quiet p q)
    (hoptions : Options c segments p options) {u : MatchUnit}
    (hunit : UnitOf c segments q options u) {i : Nat} {o : Candidate} (hm : (i, o) ∈ u.mapping)
    (hin : InOrder c segments i) :
    i = u.start ∧ o.binding.ordinal = some u.ordinal ∧
      ∃ outside, c.position p i o.binding outside = none ∧ ∀ j, InOrder c segments j → j ≠ i → j ∉ outside := by
  -- The other rows of the segment answer its calls.
  have hother : segments = true → ∀ j, InOrder c segments j → j ≠ u.start → j ∉ c.segment u.start := by
    intro hsegments j hj hne hmem
    obtain ⟨row, hrow, hindex, hanswers⟩ := answersCall_of_segment hview hsegmented hmem hne
    rw [hj hsegments row hrow hindex] at hanswers
    cases hanswers
  obtain ⟨first, rest, hmapping, hordinal, hrest⟩ := hunit.start
  rw [hmapping] at hm
  cases List.mem_cons.mp hm with
  | inl he =>
    cases he
    refine ⟨rfl, hordinal, ?_⟩
    cases hrest with
    | inl hsingle =>
      obtain ⟨l, hl, ho⟩ := hsingle.2
      obtain ⟨row, -, hindex, -, -, hoffered⟩ := hoptions _ _ hl
      refine ⟨[], ?_, fun _ _ _ => List.not_mem_nil⟩
      rw [hindex]
      exact (hoffered o ho).position
    | inr hsegment =>
      obtain ⟨hsegments, -, hposition⟩ := hsegment
      rw [position_congr hquiet.toSameCore hquiet.head] at hposition
      exact ⟨_, hposition, hother hsegments⟩
  | inr hlater =>
    cases hrest with
    | inl hsingle =>
      rw [hsingle.1] at hlater
      cases hlater
    | inr hsegment =>
      obtain ⟨hsegments, hkeys, -⟩ := hsegment
      have hdrop : i ∈ (c.segment u.start).drop 1 := hkeys ▸ List.mem_map.mpr ⟨(i, o), hlater, rfl⟩
      have hne : i ≠ u.start := by
        rintro rfl
        exact not_mem_drop_segment hview hsegmented _ hdrop
      exact absurd (List.mem_of_mem_drop hdrop) (hother hsegments i hin hne)

/-- A weak pass over increasing placements leaves the rows that it orders increasing. -/
theorem weak_increasing (hview : Indexed c.view) (hsegmented : Segmented c.view) {segments : Bool} {r : Pass}
    (h : c.weak segments p = .ok r) (hinc : Increasing c p fun _ => True) : Increasing c r (InOrder c segments) := by
  obtain ⟨q, options, hquiet, hoptions, hgrows⟩ := weak_grows h
  -- What is new was judged, and stands at the start of its unit.
  have hplace : ∀ {i : Nat} {o : Int}, (i, o) ∈ c.placed r → InOrder c segments i → (i, o) ∈ c.placed p ∨
      ∃ u, (u, true) ∈ judged (sortedUnits (c.units segments q options)) ∧ u.start = i ∧ u.ordinal = o ∧
        ∀ j o', (j, o') ∈ c.placed p → InOrder c segments j → (j < i → o' < o) ∧ (i < j → o < o') := by
    intro i o hi hin
    cases grows_mem_placed hgrows hi with
    | inl hold => exact .inl hold
    | inr hnew =>
      obtain ⟨id, ev, ⟨u, cand, hjudged, hm, hoption, hid, -⟩, hordinal⟩ := hnew
      cases hid
      obtain ⟨l, hl, ho⟩ := hoption
      obtain ⟨row, -, -, -, -, hoffered⟩ := hoptions _ _ hl
      have hbinding : c.ordinal (some (.occ cand.binding.occId)) = cand.binding.ordinal := by
        simp [ordinal, binding?_of_mem (hoffered cand ho).binding]
      have hunit := unitOf_units (mem_sortedUnits (mem_judged hjudged))
      obtain ⟨hstart, hunitOrdinal, outside, hposition, houtside⟩ :=
        unit_place hview hsegmented hquiet hoptions hunit hm hin
      rw [hbinding, hunitOrdinal, Option.some.injEq] at hordinal
      subst hordinal
      refine .inr ⟨u, hjudged, hstart.symm, rfl, ?_⟩
      intro j o' hj hjin
      by_cases hji : j = i
      · omega
      · exact position_gap hposition hunitOrdinal (fun a b x y ha hb _ _ => hinc a b x y ha hb trivial trivial) hj
          (houtside j hjin hji)
  intro i j o o' hi hj hin hjin hij
  cases hplace hi hin with
  | inl hold =>
    cases hplace hj hjin with
    | inl hold' => exact hinc i j o o' hold hold' trivial trivial hij
    | inr hnew' =>
      obtain ⟨v, -, -, -, hgap⟩ := hnew'
      exact (hgap i o hold hin).1 hij
  | inr hnew =>
    obtain ⟨u, hu, rfl, rfl, hgap⟩ := hnew
    cases hplace hj hjin with
    | inl hold' => exact (hgap j o' hold' hjin).2 hij
    | inr hnew' =>
      obtain ⟨v, hv, rfl, rfl, -⟩ := hnew'
      exact accepted_increasing hu hv hij

end Context

end Classifier
