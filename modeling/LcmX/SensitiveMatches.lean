import LcmX.SensitivePatterns

/-!
# The matches of the catalog

Every match is a label, its secret, and perhaps a quote. The label ends with a space, a
quote or an assignment, so the secret never starts within a word.
-/
namespace Sensitive

open Regex PyText Ingest

/-! ## The characters around a secret -/

/-- The characters between a label and its secret. -/
def isGapChar (c : Char) : Bool := isSpace c || c = '\\' || isQuote c

def isLabelEnd (c : Char) : Bool := isGapChar c || isAssignment c

def IsQuoting (w : List Char) : Prop := w.length ≤ 2 ∧ ∀ c ∈ w, c = '\\' ∨ isQuote c = true

def IsSpaces (w : List Char) : Prop := ∀ c ∈ w, isSpace c = true

theorem IsQuoting.gap {w : List Char} (h : IsQuoting w) : ∀ c ∈ w, isGapChar c = true := by
  intro c hc
  rcases h.2 c hc with rfl | hquote
  · decide
  · rw [isGapChar, hquote, Bool.or_true]

theorem IsSpaces.gap {w : List Char} (h : IsSpaces w) : ∀ c ∈ w, isGapChar c = true := by
  intro c hc
  rw [isGapChar, h c hc, Bool.true_or, Bool.true_or]

theorem quoteRe_yields : Yields quoteRe IsQuoting := by
  refine ((Yields.opt _).seq (Yields.opt _)).imp ?_
  rintro _ ⟨u, v, rfl, hu, hv⟩
  rcases hu with rfl | ⟨c, rfl, hc⟩ <;> rcases hv with rfl | ⟨d, rfl, hd⟩
  · exact ⟨by simp, by simp⟩
  · exact ⟨by simp, by simpa using .inr hd⟩
  · exact ⟨by simp, by simpa using .inl (of_decide_eq_true hc)⟩
  · refine ⟨by simp, fun x hx => ?_⟩
    rcases List.mem_cons.mp hx with rfl | hx
    · exact .inl (of_decide_eq_true hc)
    · exact .inr (List.mem_singleton.mp hx ▸ hd)

theorem spacesRe_yields : Yields spacesRe IsSpaces := (Yields.rep _ _ _ _).imp fun _ h => h.1

theorem assignment_yields : Yields (.char isAssignment) fun w => ∃ c, w = [c] ∧ isAssignment c = true := Yields.char _

/-! ## The labels -/

/-- A label with its assignment, and what stands between them and around them. -/
def IsAssigned (w : List Char) : Prop :=
  ∃ front c gap, w = front ++ c :: gap ∧ isAssignment c = true ∧ ∀ d ∈ gap, isGapChar d = true

theorem IsAssigned.append {u v : List Char} (h : IsAssigned v) : IsAssigned (u ++ v) := by
  obtain ⟨front, c, gap, rfl, hc, hgap⟩ := h
  exact ⟨u ++ front, c, gap, by simp, hc, hgap⟩

theorem IsAssigned.last {w : List Char} (h : IsAssigned w) : ∃ c, w.getLast? = some c ∧ isLabelEnd c = true := by
  obtain ⟨front, c, gap, rfl, hc, hgap⟩ := h
  rw [List.getLast?_append, List.getLast?_cons]
  refine ⟨gap.getLast?.getD c, rfl, ?_⟩
  cases hlast : gap.getLast? with
  | none => rw [isLabelEnd, Option.getD_none, hc, Bool.or_true]
  | some d => rw [isLabelEnd, Option.getD_some, hgap d (List.mem_of_getLast? hlast), Bool.true_or]

theorem any_yields_last {a b : Re} {P : List Char → Prop} (ha : Yields a fun _ => True) (hb : Yields b P)
    (hP : ∀ {u v}, P v → P (u ++ v)) : Yields (.seq a b) P := by
  refine (ha.seq hb).imp ?_
  rintro _ ⟨u, v, rfl, -, hv⟩
  exact hP hv

theorem joinedRe_yields (first second : String) : Yields (joinedRe first second) fun _ => True :=
  (((Yields.litIgnoringCase _).seq ((Yields.opt _).seq (Yields.litIgnoringCase _))).imp fun _ _ => trivial)

theorem keyLabelRe_yields : Yields keyLabelRe fun _ => True :=
  (joinedRe_yields _ _).or ((joinedRe_yields _ _).or
    ((joinedRe_yields _ _).or ((joinedRe_yields _ _).or (joinedRe_yields _ _))))

theorem passwordLabelRe_yields : Yields passwordLabelRe fun _ => True := by
  have hword : ∀ w, Yields (litIgnoringCase w) fun _ => True :=
    fun w => (Yields.litIgnoringCase w).imp fun _ _ => trivial
  exact (hword _).or ((hword _).or ((hword _).or (hword _)))

section

variable {isWord : Char → Bool}

theorem boundaryRe_yields : Yields (boundaryRe isWord) fun _ => True := (Yields.test _).imp fun _ _ => trivial

theorem keyPrefixRe_yields : Yields (keyPrefixRe isWord) IsAssigned := by
  have hquote : Yields quoteRe fun _ => True := quoteRe_yields.imp fun _ _ => trivial
  have hspaces : Yields spacesRe fun _ => True := spacesRe_yields.imp fun _ _ => trivial
  have hend : Yields (.seq (.char isAssignment) (.seq spacesRe quoteRe)) IsAssigned := by
    refine (assignment_yields.seq (spacesRe_yields.seq quoteRe_yields)).imp ?_
    rintro _ ⟨_, _, rfl, ⟨c, rfl, hc⟩, u, v, rfl, hu, hv⟩
    refine ⟨[], c, u ++ v, rfl, hc, fun d hd => ?_⟩
    exact (List.mem_append.mp hd).elim (hu.gap d) (hv.gap d)
  have hadd : ∀ {a b}, Yields a (fun _ => True) → Yields b IsAssigned → Yields (.seq a b) IsAssigned :=
    fun ha hb => any_yields_last ha hb IsAssigned.append
  exact hadd hquote (hadd boundaryRe_yields (hadd keyLabelRe_yields (hadd boundaryRe_yields (hadd hspaces (hadd hquote
    (hadd hspaces hend))))))

theorem passwordPrefixRe_yields : Yields (passwordPrefixRe isWord) IsAssigned := by
  have hspaces : Yields spacesRe fun _ => True := spacesRe_yields.imp fun _ _ => trivial
  have hend : Yields (.seq (.char isAssignment) spacesRe) IsAssigned := by
    refine (assignment_yields.seq spacesRe_yields).imp ?_
    rintro _ ⟨_, u, rfl, ⟨c, rfl, hc⟩, hu⟩
    exact ⟨[], c, u, rfl, hc, hu.gap⟩
  have hadd : ∀ {a b}, Yields a (fun _ => True) → Yields b IsAssigned → Yields (.seq a b) IsAssigned :=
    fun ha hb => any_yields_last ha hb IsAssigned.append
  exact hadd boundaryRe_yields (hadd passwordLabelRe_yields (hadd boundaryRe_yields (hadd hspaces
    (hadd ((Yields.opt _).imp fun _ _ => trivial) (hadd hspaces hend)))))

theorem bearerPrefixRe_yields : Yields (bearerPrefixRe isWord) fun w => ∃ c, w.getLast? = some c ∧
    isLabelEnd c = true := by
  have hspaces : Yields (plus (.char isSpace)) fun w => ∃ c, w.getLast? = some c ∧ isLabelEnd c = true := by
    refine (Yields.rep _ _ _ _).imp ?_
    rintro w ⟨hall, hne, -⟩
    obtain ⟨c, hc⟩ := List.getLast?_isSome.mpr (List.ne_nil_of_length_pos hne) |> Option.isSome_iff_exists.mp
    exact ⟨c, hc, by rw [isLabelEnd, isGapChar, hall c (List.mem_of_getLast? hc)]; rfl⟩
  have hadd : ∀ {a b}, Yields a (fun _ => True) → Yields b (fun w => ∃ c, w.getLast? = some c ∧ isLabelEnd c = true) →
      Yields (.seq a b) fun w => ∃ c, w.getLast? = some c ∧ isLabelEnd c = true := by
    intro a b ha hb
    refine any_yields_last ha hb ?_
    rintro u v ⟨c, hc, hend⟩
    exact ⟨c, by rw [List.getLast?_append, hc]; rfl, hend⟩
  exact hadd boundaryRe_yields (hadd ((Yields.litIgnoringCase _).imp fun _ _ => trivial) hspaces)

/-! ## The matches -/

/-- A match with its secret behind a label. -/
structure IsSecretAt (groups : List Nat) (s t : State) (before secret after : List Char) : Prop where
  reaches : Reaches s (before ++ (secret ++ after)) t
  span : secretSpan groups (found s t) = some (before.length, before.length + secret.length)
  nonempty : secret ≠ []
  label : ∃ c, before.getLast? = some c ∧ isLabelEnd c = true

theorem secret_nonempty {p : Char → Bool} {n : Nat} {w : List Char} {most : Option Nat}
    (h : (∀ c ∈ w, p c = true) ∧ n + 1 ≤ w.length ∧ ∀ m, most = some m → w.length ≤ m) : w ≠ [] := by
  rintro rfl
  exact absurd h.2.1 (by simp)

theorem apiKey_match {s t : State} (ht : t ∈ run (apiKey isWord).re s) :
    ∃ before secret after, IsSecretAt (apiKey isWord).secretGroups s t before secret after := by
  obtain ⟨u, hu, ht⟩ := List.mem_flatMap.mp ht
  obtain ⟨v, hv, ht⟩ := List.mem_flatMap.mp ht
  obtain ⟨u, hprefix, rfl⟩ := mem_run_group hu
  obtain ⟨v, hclass, rfl⟩ := mem_run_group hv
  obtain ⟨t, hsuffix, rfl⟩ := mem_run_group ht
  obtain ⟨before, hbefore, hgu, hlabel⟩ := keyPrefixRe_yields hprefix
  obtain ⟨secret, hsecret, hgv, hchars⟩ := Yields.rep _ _ _ _ hclass
  obtain ⟨after, hafter, hgt, -⟩ := quoteRe_yields hsuffix
  have hreach := hbefore.trans (hsecret.trans hafter)
  refine ⟨before, secret, after, ⟨hreach.1, hreach.2⟩, ?_, secret_nonempty hchars, hlabel.last⟩
  have hpos := hbefore.pos_eq
  have hpos' := hsecret.pos_eq
  simp only [State.pos] at hpos hpos'
  simp [secretSpan, apiKey, found, Match.span, hgt, hgv, State.pos, hpos', hpos]
  omega

theorem bearerToken_match {s t : State} (ht : t ∈ run (bearerToken isWord).re s) :
    ∃ before secret after, IsSecretAt (bearerToken isWord).secretGroups s t before secret after := by
  obtain ⟨u, hu, ht⟩ := List.mem_flatMap.mp ht
  obtain ⟨u, hprefix, rfl⟩ := mem_run_group hu
  obtain ⟨t, hclass, rfl⟩ := mem_run_group ht
  obtain ⟨before, hbefore, hgu, hlabel⟩ := bearerPrefixRe_yields hprefix
  obtain ⟨secret, hsecret, hgt, hchars⟩ := Yields.rep _ _ _ _ hclass
  have hreach := hbefore.trans hsecret
  refine ⟨before, secret, [], by rw [List.append_nil]; exact ⟨hreach.1, hreach.2⟩, ?_, secret_nonempty hchars, hlabel⟩
  have hpos := hbefore.pos_eq
  have hpos' := hsecret.pos_eq
  simp only [State.pos] at hpos hpos'
  simp [secretSpan, bearerToken, found, Match.span, State.pos, hpos', hpos]
  omega

/-- A match of the password pattern has its secret in one of the groups. -/
theorem passwordAssignment_match {s t : State} (ht : t ∈ run (passwordAssignment isWord).re s) (hs : s.groups = []) :
    ∃ before secret after, IsSecretAt (passwordAssignment isWord).secretGroups s t before secret after := by
  obtain ⟨u, hu, ht⟩ := List.mem_flatMap.mp ht
  obtain ⟨u, hprefix, rfl⟩ := mem_run_group hu
  obtain ⟨label, hlabel, hgu, hassigned⟩ := passwordPrefixRe_yields hprefix
  have hpos := hlabel.pos_eq
  simp only [State.pos] at hpos
  rcases List.mem_append.mp ht with ht | ht
  · obtain ⟨v, hv, ht⟩ := List.mem_flatMap.mp ht
    obtain ⟨x, hx, ht⟩ := List.mem_flatMap.mp ht
    obtain ⟨v, hopen, rfl⟩ := mem_run_group hv
    obtain ⟨x, hclass, rfl⟩ := mem_run_group hx
    obtain ⟨_, hquote, hgv, c, rfl, hc⟩ := Yields.char _ hopen
    obtain ⟨secret, hsecret, hgx, hchars⟩ := Yields.rep _ _ _ _ hclass
    obtain ⟨after, hafter⟩ := run_reaches _ ht
    have hgt : t.groups = (3, v.pos, x.pos) :: x.groups := by
      rw [run] at ht
      split at ht
      · cases ht
      · split at ht
        · rw [List.mem_singleton.mp ht]
          rfl
        · cases ht
    have hreach := (hlabel.trans hquote).trans (hsecret.trans hafter)
    refine ⟨label ++ [c], secret, after, ⟨hreach.1, hreach.2⟩, ?_, secret_nonempty hchars, c, by simp, ?_⟩
    · have hpos' := hquote.pos_eq
      have hpos'' := hsecret.pos_eq
      simp only [State.pos] at hpos' hpos''
      simp [secretSpan, passwordAssignment, found, Match.span, State.pos, hgt, hpos'', hpos', hpos]
      omega
    · rw [isLabelEnd, isGapChar, hc, Bool.or_true, Bool.true_or]
  · obtain ⟨t, hclass, rfl⟩ := mem_run_group ht
    obtain ⟨secret, hsecret, hgt, hchars⟩ := Yields.rep _ _ _ _ hclass
    have hreach := hlabel.trans hsecret
    refine ⟨label, secret, [], by rw [List.append_nil]; exact ⟨hreach.1, hreach.2⟩, ?_,
      secret_nonempty hchars, hassigned.last⟩
    have hpos' := hsecret.pos_eq
    simp only [State.pos] at hpos'
    simp [secretSpan, passwordAssignment, found, Match.span, State.pos, hgt, hgu, hs, hpos', hpos]
    omega

/-- Every match of the catalog is a secret behind its label. -/
theorem catalog_match {name : PatternName} {p : SensitivePattern} (hp : catalog isWord name = some p) {s t : State}
    (ht : t ∈ run p.re s) (hs : s.groups = []) : ∃ before secret after,
      IsSecretAt p.secretGroups s t before secret after := by
  cases name with
  | apiKey => cases hp; exact apiKey_match ht
  | bearerToken => cases hp; exact bearerToken_match ht
  | passwordAssignment => cases hp; exact passwordAssignment_match ht hs
  | privateKey => cases hp

/-- The parts of a match: the secret between what stays. -/
theorem matchParts_secret {groups : List Nat} {s t : State} {before secret after : List Char}
    (h : IsSecretAt groups s t before secret after) :
    matchParts groups (.inr (found s t)) = kept before ++ .inr secret :: kept after := by
  simp only [matchParts, h.span, h.reaches.found_text]
  simp [slice]

/-! ## The parts of a text -/

/-- Every part that is replaced stands behind a label. -/
def IsLabelled (ps : List Part) : Prop :=
  ∀ a w b, ps = a ++ .inr w :: b → w ≠ [] ∧ ∃ front c, a = front ++ [.inl c] ∧ isLabelEnd c = true

theorem isLabelled_kept (w : List Char) : IsLabelled (kept w) := by
  intro a v b h
  have hmem : Sum.inr v ∈ kept w := h ▸ List.mem_append_right _ List.mem_cons_self
  obtain ⟨c, -, hc⟩ := List.mem_map.mp hmem
  cases hc

theorem IsLabelled.append {x y : List Part} (hx : IsLabelled x) (hy : IsLabelled y) : IsLabelled (x ++ y) := by
  intro a w b h
  rcases List.append_eq_append_iff.mp h with ⟨d, rfl, hd⟩ | ⟨d, hd, hb⟩
  · obtain ⟨hw, front, c, hfront, hc⟩ := hy d w b hd
    exact ⟨hw, x ++ front, c, by rw [hfront, List.append_assoc], hc⟩
  · cases d with
    | nil =>
      rw [List.nil_append] at hb
      obtain ⟨-, front, c, hfront, -⟩ := hy [] w b hb.symm
      cases front <;> cases hfront
    | cons piece d =>
      rw [List.cons_append, List.cons.injEq] at hb
      obtain ⟨rfl, -⟩ := hb
      exact hx a w d hd

theorem isLabelled_flatMap {α : Type} {f : α → List Part} {l : List α}
    (h : ∀ x ∈ l, IsLabelled (f x)) : IsLabelled (l.flatMap f) := by
  induction l with
  | nil => exact isLabelled_kept []
  | cons x l ih =>
    rw [List.flatMap_cons]
    exact (h x List.mem_cons_self).append (ih fun y hy => h y (List.mem_cons_of_mem _ hy))

/-- A secret behind a label is labelled. -/
theorem isLabelled_secret {before secret after : List Char} (hsecret : secret ≠ [])
    (hlabel : ∃ c, before.getLast? = some c ∧ isLabelEnd c = true) :
      IsLabelled (kept before ++ .inr secret :: kept after) := by
  obtain ⟨c, hlast, hc⟩ := hlabel
  obtain ⟨front, rfl⟩ := List.getLast?_eq_some_iff.mp hlast
  intro a w b h
  -- the secret is the only part that is replaced
  have hcut : ∀ (x : List Char) (a : List Part), kept x ++ .inr secret :: kept after = a ++
      .inr w :: b → a = kept x ∧ w = secret := by
    intro x
    induction x with
    | nil =>
      intro a h
      cases a with
      | nil => exact ⟨rfl, (Sum.inr.inj (List.cons.inj h).1).symm⟩
      | cons piece a =>
        rw [kept_nil, List.nil_append, List.cons_append, List.cons.injEq] at h
        exact absurd h.2 fun h => by
          obtain ⟨-, front, c, hfront, -⟩ := isLabelled_kept after a w b h
          have hmem : Sum.inr w ∈ kept after := h ▸ List.mem_append_right _ List.mem_cons_self
          obtain ⟨d, -, hd⟩ := List.mem_map.mp hmem
          cases hd
    | cons d x ih =>
      intro a h
      cases a with
      | nil => cases (List.cons.inj h).1
      | cons piece a =>
        rw [kept_cons, List.cons_append, List.cons_append, List.cons.injEq] at h
        obtain ⟨ha, hw⟩ := ih a h.2
        exact ⟨by rw [← h.1, ha]; rfl, hw⟩
  obtain ⟨rfl, rfl⟩ := hcut _ a h
  exact ⟨hsecret, kept front, c, by simp, hc⟩

variable {name : PatternName} {p : SensitivePattern}

theorem mem_cut_secret (hp : catalog isWord name = some p) {text : List Char} {m : Match}
    (hm : .inr m ∈ cut p.re text) :
    ∃ before secret after, m.text = before ++ (secret ++ after) ∧ secret ≠ [] ∧
      (∃ c, before.getLast? = some c ∧ isLabelEnd c = true) ∧
      matchParts p.secretGroups (.inr m) = kept before ++ .inr secret :: kept after := by
  obtain ⟨s, t, ht, hs, rfl⟩ := mem_pieces hm
  obtain ⟨before, secret, after, hmatch⟩ := catalog_match hp ht hs
  exact ⟨before, secret, after, hmatch.reaches.found_text, hmatch.nonempty, hmatch.label, matchParts_secret hmatch⟩

/-- The parts of a text spell it. -/
theorem parts_text (hp : catalog isWord name = some p) (text : List Char) : partsText (p.parts text) = text := by
  have hpiece : ∀ piece ∈ cut p.re text, partsText (matchParts p.secretGroups piece) = pieceText Match.text piece := by
    intro piece hpiece
    cases piece with
    | inl c => rfl
    | inr m =>
      obtain ⟨before, secret, after, htext, -, -, hparts⟩ := mem_cut_secret hp hpiece
      rw [hparts, pieceText, htext]
      simp
  calc partsText (p.parts text) = (cut p.re text).flatMap fun piece => partsText (matchParts p.secretGroups piece) :=
        List.flatMap_assoc
    _ = (cut p.re text).flatMap (pieceText Match.text) := List.flatMap_congr hpiece
    _ = text := cut_text p.re text

theorem parts_labelled (hp : catalog isWord name = some p) (text : List Char) : IsLabelled (p.parts text) := by
  refine isLabelled_flatMap fun piece hpiece => ?_
  cases piece with
  | inl c => exact isLabelled_kept [c]
  | inr m =>
    obtain ⟨before, secret, after, -, hsecret, hlabel, hparts⟩ := mem_cut_secret hp hpiece
    rw [hparts]
    exact isLabelled_secret hsecret hlabel

end

end Sensitive
