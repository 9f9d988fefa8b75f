import LcmX.EmbeddingPrivacy
import LcmX.PemMarkers

/-!
# Placeholders in a text

Where a placeholder stands in a text, and what the canonicaliser makes of it. A text is
canonical when each of its placeholders is written as its name alone would be.
-/
namespace EmbeddingPrivacy

open Regex PyText Ingest Sensitive

/-! ## Headers -/

/-- Texts that are equal but for the case. -/
def SameIgnoringCase : List Char → List Char → Prop := List.Forall₂ fun c d => ignoringCase c d = true

/-- A character that stands for none of a literal is not in it. -/
theorem SameIgnoringCase.not_mem {w v : List Char} (h : SameIgnoringCase w v) {d : Char}
    (hd : w.all (fun c => !ignoringCase c d) = true) :
    d ∉ v := by
  intro hmem
  induction h with
  | nil => cases hmem
  | cons hc htail ih =>
    rw [List.all_cons, Bool.and_eq_true] at hd
    rcases List.mem_cons.mp hmem with rfl | hmem
    · rw [hc] at hd
      exact absurd hd.1 (by decide)
    · exact ih hd.2 hmem

theorem SameIgnoringCase.first {w v : List Char} (h : SameIgnoringCase w v) {c : Char} (hc : w.head? = some c) :
    ∃ d rest, v = d :: rest ∧ ignoringCase c d = true ∧ SameIgnoringCase w.tail rest := by
  cases h with
  | nil => cases hc
  | cons hd htail => exact ⟨_, _, rfl, Option.some.inj hc ▸ hd, htail⟩

theorem ignoringCase_bracket {d : Char} (h : ignoringCase '[' d = true) : d = '[' := by
  have hlower : d.toLower = '[' := by simpa [ignoringCase] using h
  have htable : ∀ n < 128, (Char.ofNat n).toLower = '[' → Char.ofNat n = '[' := by decide +kernel
  have hd := htable d.toNat (Pem.toNat_lt_of_toLower (by rw [hlower]; decide))
  rw [Char.ofNat_toNat] at hd
  exact hd hlower

def IsKind (w : List Char) : Prop :=
  SameIgnoringCase "sensitive redaction".toList w ∨ SameIgnoringCase "embedding privacy".toList w

/-- `[LCM <kind>:\s*name=`. -/
structure IsHeader (w : List Char) : Prop where
  parts : ∃ opening kind colon spaces label, w = opening ++ (kind ++ (colon ++ (spaces ++ label))) ∧
    SameIgnoringCase "[LCM ".toList opening ∧ IsKind kind ∧ SameIgnoringCase ":".toList colon ∧
    (∀ c ∈ spaces, isSpace c = true) ∧ SameIgnoringCase "name=".toList label

theorem headerRe_yields : Yields headerRe IsHeader := by
  have hkind : Yields (.or (litIgnoringCase "sensitive redaction".toList)
      (litIgnoringCase "embedding privacy".toList)) IsKind :=
    ((Yields.litIgnoringCase _).imp fun _ => .inl).or ((Yields.litIgnoringCase _).imp fun _ => .inr)
  have hspaces : Yields (star (.char isSpace)) fun w => ∀ c ∈ w, isSpace c = true :=
    (Yields.rep _ _ _ _).imp fun _ h => h.1
  refine ((Yields.litIgnoringCase _).seq (hkind.seq ((Yields.litIgnoringCase _).seq
    (hspaces.seq (Yields.litIgnoringCase _))))).imp ?_
  rintro _ ⟨opening, _, rfl, ho, kind, _, rfl, hk, colon, _, rfl, hc, spaces, label, rfl, hs, hl⟩
  exact ⟨opening, kind, colon, spaces, label, rfl, ho, hk, hc, hs, hl⟩

/-- The brackets of a header: one at its front. -/
theorem IsHeader.brackets {w : List Char} (h : IsHeader w) : ∃ rest, w = '[' :: rest ∧ '[' ∉ rest ∧ ']' ∉ rest := by
  obtain ⟨opening, kind, colon, spaces, label, rfl, hopening, hkind, hcolon, hspaces, hlabel⟩ := h.parts
  obtain ⟨d, front, rfl, hd, hfront⟩ := hopening.first (c := '[') (by decide)
  · have hnone : ∀ x, isSpace x = false →
      (("LCM ".toList ++ ("sensitive redaction".toList ++ ("embedding privacy".toList ++
        (":".toList ++ "name=".toList)))).all fun c => !ignoringCase c x) = true →
          x ∉ front ++ (kind ++ (colon ++ (spaces ++ label))) := by
      intro x hspace hall
      simp only [List.all_append, Bool.and_eq_true] at hall
      obtain ⟨hfirst, hsensitive, hembedding, hmark, hname⟩ := hall
      have hkinds : x ∉ kind := hkind.elim (fun h => h.not_mem hsensitive) fun h => h.not_mem hembedding
      have hspaces : x ∉ spaces := fun hmem => by
        rw [hspaces x hmem] at hspace
        cases hspace
      simp only [List.mem_append, not_or]
      exact ⟨SameIgnoringCase.not_mem hfront hfirst, hkinds, hcolon.not_mem hmark, hspaces, hlabel.not_mem hname⟩
    rw [ignoringCase_bracket hd]
    exact ⟨_, rfl, hnone '[' (by decide) (by decide), hnone ']' (by decide) (by decide)⟩

/-! ## The header in the matcher -/

theorem not_both_kinds {w v : List Char} (hw : SameIgnoringCase "sensitive redaction".toList w)
    (hv : SameIgnoringCase "embedding privacy".toList v) (rest rest' : List Char) : w ++ rest ≠ v ++ rest' := by
  obtain ⟨c, w, rfl, hc, -⟩ := hw.first (c := 's') (by decide)
  obtain ⟨d, v, rfl, hd, -⟩ := hv.first (c := 'e') (by decide)
  intro h
  obtain rfl : c = d := (List.cons.inj h).1
  -- no character stands for both first letters
  have hlower : c.toLower = 'e' := by simpa [ignoringCase] using hd
  have htable : ∀ n < 128, (Char.ofNat n).toLower = 'e' → ignoringCase 's' (Char.ofNat n) = false := by decide +kernel
  have hc' := htable c.toNat (Pem.toNat_lt_of_toLower (by rw [hlower]; decide))
  rw [Char.ofNat_toNat] at hc'
  rw [hc' hlower] at hc
  cases hc

theorem run_kind {w : List Char} (h : IsKind w) (behind rest : List Char) (groups : List (Nat × Nat × Nat)) :
    (run (.or (litIgnoringCase "sensitive redaction".toList) (litIgnoringCase "embedding privacy".toList))
      ⟨behind, w ++ rest, groups⟩).head? =
      some ⟨w.reverse ++ behind, rest, groups⟩ := by
  rw [run]
  rcases h with h | h
  · rw [run_litIgnoringCase behind rest groups h]
    rfl
  · have hnone : run (litIgnoringCase "sensitive redaction".toList) ⟨behind, w ++ rest, groups⟩ = [] := by
      rw [List.eq_nil_iff_forall_not_mem]
      intro t ht
      obtain ⟨v, hv, hsame⟩ := litIgnoringCase_reaches ht
      exact not_both_kinds hsame h t.ahead rest hv.2.symm
    rw [hnone, run_litIgnoringCase behind rest groups h]
    rfl

/-- A header is matched in one way. -/
theorem run_header {w : List Char} (h : IsHeader w) (behind rest : List Char) (groups : List (Nat × Nat × Nat)) :
    (run headerRe ⟨behind, w ++ rest, groups⟩).head? = some ⟨w.reverse ++ behind, rest, groups⟩ := by
  obtain ⟨opening, kind, colon, spaces, label, rfl, hopening, hkind, hcolon, hspaces, hlabel⟩ := h.parts
  simp only [headerRe, run, List.append_assoc]
  rw [run_litIgnoringCase _ _ _ hopening, List.flatMap_singleton]
  refine head?_flatMap_of_first (run_kind hkind _ _ _) ?_
  rw [run_litIgnoringCase _ _ _ hcolon, List.flatMap_singleton]
  have hstop : ∀ c ∈ (label ++ rest).head?, isSpace c = false := by
    obtain ⟨d, more, rfl, hd, -⟩ := hlabel.first (c := 'n') (by decide)
    have hlower : d.toLower = 'n' := by simpa [ignoringCase] using hd
    have htable : ∀ n < 128, (Char.ofNat n).toLower = 'n' → isSpace (Char.ofNat n) = false := by decide +kernel
    have hspace := htable d.toNat (Pem.toNat_lt_of_toLower (by rw [hlower]; decide))
    rw [Char.ofNat_toNat] at hspace
    rintro c hc
    rw [← Option.some.inj hc]
    exact hspace hlower
  obtain ⟨more, hmore⟩ := run_greedy_first hstop groups spaces _ hspaces (Nat.zero_le _)
  refine head?_flatMap_of_first (congrArg List.head? hmore) ?_
  rw [run_litIgnoringCase _ _ _ hlabel]
  simp

theorem header_unique {w v x y : List Char} (hw : IsHeader w) (hv : IsHeader v) (h : w ++ x = v ++ y) : w = v := by
  have hrun := run_header hw [] x []
  rw [h, run_header hv, Option.some.injEq, State.mk.injEq, List.append_nil, List.append_nil] at hrun
  exact (List.reverse_injective hrun.1).symm

/-! ## Placeholders -/

/-- A placeholder at the front of a text; its name goes on as far as it can. -/
structure Placed (v : List Char) where
  header : List Char
  name : List Char
  junk : List Char
  rest : List Char
  text : v = header ++ (name ++ (junk ++ ']' :: rest))
  isHeader : IsHeader header
  named : name ≠ [] ∧ ∀ c ∈ name, isNameChar c = true
  stops : ∀ c ∈ junk.head?, isNameChar c = false
  closes : ']' ∉ junk

namespace Placed

variable {v : List Char} (P : Placed v)

/-- The placeholder as it is written. -/
def written : List Char := P.header ++ (P.name ++ (P.junk ++ [']']))

/-- The placeholder as it should be written. -/
def canonical : List Char := embeddingPlaceholder (lower (strip P.name))

theorem text_eq : v = P.written ++ P.rest := P.text.trans (by simp [written])

/-- The state behind a placeholder, with its name as the first group. -/
def past (behind : List Char) : State where
  behind := P.written.reverse ++ behind
  ahead := P.rest
  groups := [(1, behind.length + P.header.length, behind.length + P.header.length + P.name.length)]

/-- The pattern matches a placed placeholder to its end. -/
theorem run_placeholder (behind : List Char) : matchAt placeholderRe behind v = some (P.past behind) := by
  rw [matchAt, placeholderRe]
  nth_rewrite 1 [P.text]
  simp only [run]
  refine head?_flatMap_of_first (run_header P.isHeader _ _ _) ?_
  have hstop : ∀ c ∈ (P.junk ++ ']' :: P.rest).head?, isNameChar c = false := by
    intro c hc
    cases hjunk : P.junk with
    | nil =>
      rw [hjunk, List.nil_append, List.head?_cons, Option.mem_some_iff] at hc
      rw [← hc]
      decide
    | cons d junk =>
      rw [hjunk, List.cons_append, List.head?_cons, Option.mem_some_iff] at hc
      exact P.stops c (by rw [hjunk, ← hc]; rfl)
  obtain ⟨more, hname⟩ := run_greedy_first hstop [] P.name (P.header.reverse ++ behind) P.named.2
    (List.length_pos_of_ne_nil P.named.1)
  refine head?_flatMap_of_first (x := ⟨P.name.reverse ++ (P.header.reverse ++ behind), P.junk ++ ']' :: P.rest,
    (P.past behind).groups⟩) ?_ ?_
  · rw [List.head?_map]
    refine (congrArg (Option.map _) (congrArg List.head? hname)).trans ?_
    simp [State.pos, past]
    omega
  · have hclose : ∀ c ∈ (']' :: P.rest).head?, decide (c ≠ ']') = false := by simp
    have hjunk : ∀ c ∈ P.junk, decide (c ≠ ']') = true := fun c hc => decide_eq_true fun h => P.closes (h ▸ hc)
    obtain ⟨more', hrest⟩ := run_greedy_first hclose (P.past behind).groups P.junk
      (P.name.reverse ++ (P.header.reverse ++ behind)) hjunk
      (Nat.zero_le _)
    refine head?_flatMap_of_first (congrArg List.head? hrest) ?_
    simp [State.next, past, written]

theorem found_canonical (behind : List Char) :
    canonicalMatch (found ⟨behind, v, []⟩ (P.past behind)) = P.canonical := by
  have hname : (found ⟨behind, v, []⟩ (P.past behind)).group 1 = some P.name := by
    have hdrop : (behind.reverse ++ (P.header ++ (P.name ++ (P.junk ++ ']' :: P.rest)))).drop
      (behind.length + P.header.length) =
        P.name ++ (P.junk ++ ']' :: P.rest) := by
      rw [← List.append_assoc]
      exact List.drop_left' (by simp)
    simp [Match.group, found, past, State.text, written, hdrop]
  rw [canonicalMatch, hname]
  rfl

theorem unique (Q : Placed v) : P.written = Q.written ∧ P.name = Q.name ∧ P.rest = Q.rest := by
  have h := P.run_placeholder []
  rw [Q.run_placeholder, Option.some.injEq] at h
  have hwritten : Q.written = P.written := by simpa [past] using congrArg State.behind h
  have hheader : P.header = Q.header := header_unique P.isHeader Q.isHeader (P.text.symm.trans Q.text)
  have hname : P.name.length = Q.name.length := by
    have hgroups := congrArg State.groups h
    simp only [past, hheader, List.cons.injEq, Prod.mk.injEq, and_true, true_and] at hgroups
    omega
  have htext := P.text.symm.trans Q.text
  rw [hheader, List.append_cancel_left_eq] at htext
  exact ⟨hwritten.symm, (List.append_inj htext hname).1, (congrArg State.ahead h).symm⟩

end Placed

/-- Where the expression matches, a placeholder stands. -/
theorem exists_placed {behind v : List Char} {t : State}
    (h : matchAt placeholderRe behind v = some t) : Nonempty (Placed v) := by
  obtain ⟨u, hu, ht⟩ := List.mem_flatMap.mp (List.mem_of_mem_head? h)
  obtain ⟨x, hx, ht⟩ := List.mem_flatMap.mp ht
  obtain ⟨x, hclass, rfl⟩ := mem_run_group hx
  obtain ⟨y, hy, ht⟩ := List.mem_flatMap.mp ht
  obtain ⟨header, hheader, -, his⟩ := headerRe_yields hu
  obtain ⟨name, hname, -, hnamed, hne, -⟩ := Yields.rep _ _ _ _ hclass
  obtain ⟨junk, hjunk, -, hall, -⟩ := Yields.rep _ _ _ _ hy
  obtain ⟨_, hclose, -, c, rfl, hc⟩ := Yields.char _ ht
  have htext := (hheader.trans (hname.trans (Reaches.trans ⟨hjunk.1, hjunk.2⟩ hclose))).2
  rw [of_decide_eq_true hc] at htext
  refine ⟨⟨header, name ++ junk.takeWhile isNameChar, junk.dropWhile isNameChar, t.ahead, ?_, his, ⟨?_, ?_⟩, ?_, ?_⟩⟩
  · rw [List.append_assoc, ← List.append_assoc (junk.takeWhile _), List.takeWhile_append_dropWhile]
    simpa using htext
  · exact fun hnil => absurd hne (by rw [(List.append_eq_nil_iff.mp hnil).1]; decide)
  · intro d hd
    rcases List.mem_append.mp hd with hd | hd
    · exact hnamed d hd
    · exact List.mem_takeWhile_imp hd
  · intro d hd
    have := List.head?_dropWhile_not isNameChar junk
    rw [hd] at this
    simpa using this
  · intro hmem
    exact absurd (hall ']' ((List.dropWhile_sublist _).subset hmem)) (by decide)

/-! ## Canonical texts -/

/-- A placeholder at the front is written as it should be. -/
def Settled (v : List Char) : Prop := ∀ P : Placed v, P.written = P.canonical

theorem first_split {x y u v : List Char} {d : Char} (hx : d ∉ x) (hy : d ∉ y)
    (h : x ++ d :: u = y ++ d :: v) : x = y ∧ u = v := by
  induction x generalizing y with
  | nil =>
    cases y with
    | nil => exact ⟨rfl, (List.cons.inj h).2⟩
    | cons c y => exact absurd (List.cons.inj h).1 fun he => hy (he ▸ List.mem_cons_self)
  | cons c x ih =>
    cases y with
    | nil => exact absurd (List.cons.inj h).1.symm fun he => hx (he ▸ List.mem_cons_self)
    | cons c' y =>
      obtain ⟨hc, hrest⟩ := List.cons.inj h
      obtain ⟨rfl, huv⟩ := ih (fun hmem => hx (List.mem_cons_of_mem _ hmem))
        (fun hmem => hy (List.mem_cons_of_mem _ hmem)) hrest
      exact ⟨by rw [hc], huv⟩

theorem embeddingPlaceholder_brackets (name : List Char) : ∃ body, embeddingPlaceholder name = '[' :: (body ++ [']']) ∧
    '[' ∉ body ∧ ']' ∉ body := by
  refine ⟨"LCM embedding privacy: name=".toList ++ placeholderMetadata name, rfl, ?_, ?_⟩
  · rw [List.mem_append, not_or]
    exact ⟨by decide, fun h => (valueChar_facts (placeholderMetadata_value name _ h)).2.1 rfl⟩
  · rw [List.mem_append, not_or]
    exact ⟨by decide, fun h => (valueChar_facts (placeholderMetadata_value name _ h)).2.2.1 rfl⟩

theorem name_brackets {c : Char} (h : isNameChar c = true) : c ≠ '[' ∧ c ≠ ']' := by
  refine ⟨?_, ?_⟩ <;> rintro rfl <;> exact absurd h (by decide)

namespace Placed

variable {v : List Char} (P : Placed v)

theorem written_first : ∃ front, P.written = front ++ [']'] ∧ ']' ∉ front := by
  refine ⟨P.header ++ (P.name ++ P.junk), by simp [written], ?_⟩
  obtain ⟨rest, hheader, -, hrest⟩ := P.isHeader.brackets
  rw [hheader]
  simp only [List.cons_append, List.mem_cons, List.mem_append, not_or]
  exact ⟨by decide, hrest, fun h => (name_brackets (P.named.2 _ h)).2 rfl, P.closes⟩

theorem rest_shorter : P.rest.length < v.length := by
  obtain ⟨front, hfront, -⟩ := P.written_first
  have hlength : v.length = (front ++ [']'] ++ P.rest).length := hfront ▸ congrArg List.length P.text_eq
  rw [List.length_append, List.length_append, List.length_singleton] at hlength
  omega

/-- Where a placeholder stands, the expression matches. -/
theorem not_unmatched {v : List Char} (P : Placed v) {behind : List Char}
    (h : (matchAt placeholderRe behind v).filter (fun t => decide (t.ahead.length < v.length)) = none) : False := by
  rw [P.run_placeholder, Option.filter_eq_none_iff] at h
  exact h _ rfl (decide_eq_true P.rest_shorter)

/-- A text that starts with a written placeholder goes on behind its closing bracket. -/
theorem front_written {name tail : List Char} (h : embeddingPlaceholder name ++ tail = v) :
    P.written = embeddingPlaceholder name ∧ tail = P.rest := by
  obtain ⟨body, hbody, -, hcloses⟩ := embeddingPlaceholder_brackets name
  obtain ⟨front, hfront, hnone⟩ := P.written_first
  have hsame : embeddingPlaceholder name ++ tail = P.written ++ P.rest := h.trans P.text_eq
  rw [hbody, hfront] at hsame
  have hsame' : ('[' :: body) ++ ']' :: tail = front ++ ']' :: P.rest := by simpa using hsame
  obtain ⟨hname, hafter⟩ := first_split (by simp [hcloses]) hnone hsame'
  refine ⟨?_, hafter⟩
  rw [hfront, ← hname, hbody]
  rfl

end Placed

theorem front_bracket {v : List Char} (P : Placed v) : v.head? = some '[' := by
  obtain ⟨rest, hheader, -⟩ := P.isHeader.brackets
  rw [P.text_eq, Placed.written, hheader]
  rfl

theorem settled_of_head {v : List Char} (h : v.head? ≠ some '[') : Settled v := fun P => absurd (front_bracket P) h

theorem forall_split_cons {c : Char} {rest : List Char} {Q : List Char → Prop} :
    (∀ u v, c :: rest = u ++ v → Q v) ↔ Q (c :: rest) ∧ ∀ u v, rest = u ++ v → Q v := by
  constructor
  · exact fun h => ⟨h [] _ rfl, fun u v huv => h (c :: u) v (by rw [huv]; rfl)⟩
  · rintro ⟨hhere, hrest⟩ u v huv
    cases u with
    | nil =>
      rw [List.nil_append] at huv
      exact huv ▸ hhere
    | cons d u => exact hrest u v (List.cons.inj huv).2

/-- Inside a placeholder that is written as it should be, no other one starts. -/
theorem settled_inside_head {name : List Char} {u v rest : List Char} (h : embeddingPlaceholder name ++ rest = u ++ v)
    (hu : u ≠ []) (hless : u.length < (embeddingPlaceholder name).length) : v.head? ≠ some '[' := by
  obtain ⟨body, hbody, hopen, -⟩ := embeddingPlaceholder_brackets name
  rw [hbody] at h hless
  cases u with
  | nil => exact absurd rfl hu
  | cons c u =>
    rw [List.cons_append, List.cons_append, List.cons.injEq] at h
    rcases List.append_eq_append_iff.mp h.2 with ⟨d, rfl, rfl⟩ | ⟨d, hd, rfl⟩
    · cases d with
      | nil => simp at hless
      | cons e d =>
        simp at hless
    · cases d with
      | nil =>
        have := congrArg List.length hd
        simp at this hless
        omega
      | cons e d =>
        rw [List.cons_append, List.head?_cons]
        rintro he
        obtain rfl := Option.some.inj he
        have hmem : '[' ∈ body ++ [']'] := hd ▸ List.mem_append_right _ List.mem_cons_self
        rcases List.mem_append.mp hmem with hmem | hmem
        · exact hopen hmem
        · exact absurd (List.mem_singleton.mp hmem) (by decide)

/-- A text is its own canonical form exactly when every suffix is settled. -/
theorem pieces_canonical (fuel : Nat) : ∀ {behind ahead : List Char}, ahead.length ≤ fuel →
    ((pieces placeholderRe fuel behind ahead).flatMap (pieceText canonicalMatch) = ahead ↔
      ∀ u v, ahead = u ++ v → Settled v) := by
  induction fuel with
  | zero =>
    intro behind ahead h
    obtain rfl := List.length_eq_zero_iff.mp (by omega : ahead.length = 0)
    refine iff_of_true rfl fun u v huv => ?_
    obtain ⟨-, rfl⟩ := List.append_eq_nil_iff.mp huv.symm
    exact settled_of_head (by decide)
  | succ fuel ih =>
    intro behind ahead h
    rw [pieces_succ]
    split
    · next t ht =>
      obtain ⟨hmatch, hless⟩ := Option.filter_eq_some_iff.mp ht
      obtain ⟨P⟩ := exists_placed hmatch
      rw [P.run_placeholder, Option.some.injEq] at hmatch
      subst hmatch
      have hshort : P.rest.length < ahead.length := of_decide_eq_true hless
      have hrest := @ih (P.past behind).behind P.rest (by omega)
      rw [List.flatMap_cons, pieceText, P.found_canonical]
      constructor
      · intro heq
        have hfront : P.written = P.canonical ∧ _ = P.rest := P.front_written heq
        obtain ⟨hwritten, hafter⟩ := hfront
        intro u v huv
        by_cases hu : u = []
        · rw [hu, List.nil_append] at huv
          subst huv
          intro Q
          obtain ⟨hw, hn, -⟩ := P.unique Q
          rw [← hw, hwritten, Placed.canonical, Placed.canonical, hn]
        · rw [P.text_eq, hwritten] at huv
          by_cases hlength : u.length < P.canonical.length
          · exact settled_of_head (settled_inside_head huv hu hlength)
          · rcases List.append_eq_append_iff.mp huv with ⟨d, rfl, hd⟩ | ⟨d, hd, rfl⟩
            · exact (hrest.mp hafter) d v hd
            · have hnil : d = [] := by
                have := congrArg List.length hd
                rw [List.length_append] at this
                exact List.length_eq_zero_iff.mp (by omega)
              rw [hnil, List.nil_append]
              exact (hrest.mp hafter) [] _ rfl
      · intro hall
        have hwritten : P.written = P.canonical := hall [] ahead rfl P
        have hafter := hrest.mpr fun u v huv => hall (P.written ++ u) v
          (P.text_eq.trans (by rw [huv, List.append_assoc]))
        rw [show (P.past behind).ahead = P.rest from rfl, hafter, ← hwritten]
        exact P.text_eq.symm
    · next hnone =>
      have hplaced : Settled ahead := fun P => (P.not_unmatched hnone).elim
      cases ahead with
      | nil =>
        refine iff_of_true rfl fun u v huv => ?_
        obtain ⟨-, rfl⟩ := List.append_eq_nil_iff.mp huv.symm
        exact hplaced
      | cons c rest =>
        rw [List.flatMap_cons, pieceText, List.singleton_append, List.cons.injEq, forall_split_cons]
        have hrest := @ih (c :: behind) rest (by simpa using h)
        rw [hrest]
        exact ⟨fun h => ⟨hplaced, h.2⟩, fun h => ⟨rfl, h.2⟩⟩

/-- A text is canonical when each of its placeholders is. -/
theorem canonicalize_eq_iff (text : List Char) : canonicalizePlaceholders text = text ↔
    ∀ u v, text = u ++ v → Settled v :=
  pieces_canonical _ (Nat.le_refl _)

end EmbeddingPrivacy
