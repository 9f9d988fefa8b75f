import LcmX.Lib.Lines
import LcmX.PemMarkers
import LcmX.SummaryContract

/-!
# The closing hint of a summary

What a hint line is, and what its plain form keeps of a line that is no hint as it stands.
-/
namespace Escalation

open Regex PyText

/-! ## Hints -/

theorem summaryHintLabel_eq : summaryHintLabel =
    ['e', 'x', 'p', 'a', 'n', 'd', ' ', 'f', 'o', 'r', ' ', 'd', 'e', 't', 'a', 'i', 'l', 's', ' ',
    'a', 'b', 'o', 'u', 't', ':'] := toList_eq rfl

theorem hintStart_eq : hintStart =
    ['E', 'x', 'p', 'a', 'n', 'd', ' ', 'f', 'o', 'r', ' ', 'd', 'e', 't', 'a', 'i', 'l', 's', ' ',
    'a', 'b', 'o', 'u', 't', ':', ' '] := toList_eq rfl

/-- A label that ignores the case, spaces, and a topic on one line. -/
structure IsHint (line : Text) : Prop where
  parts : ∃ label sp c rest, line = label ++ (sp ++ c :: rest) ∧
    List.Forall₂ (fun c d => ignoringCase c d = true) "Expand for details about:".toList label ∧
    sp ≠ [] ∧ (∀ d ∈ sp, isSpace d = true) ∧ isSpace c = false ∧ '\n' ∉ rest

variable {line hint : Text}

theorem isExpandHint_iff : isExpandHint line = true ↔ IsHint line := by
  constructor
  · intro h
    rw [isExpandHint, fullmatch, Option.isSome_map, List.find?_isSome] at h
    obtain ⟨t, ht, hend⟩ := h
    obtain ⟨_, hreach, -, label, _, rfl, hlabel, sp, _, rfl, ⟨hsp, hleast, -⟩, _, rest, rfl, ⟨c, rfl, hc⟩, hrest, -⟩ :=
      ((Yields.litIgnoringCase _).seq
        ((Yields.rep false 1 none isSpace).seq ((Yields.char _).seq (Yields.rep false 0 none _)))) ht
    have hline : line = label ++ (sp ++ c :: rest) := by
      have h := hreach.2
      rw [of_decide_eq_true hend, List.append_nil] at h
      exact h
    refine ⟨label, sp, c, rest, hline, hlabel, List.length_pos_iff.mp hleast, hsp, by simpa using hc, fun hmem => ?_⟩
    exact absurd (hrest _ hmem) (by decide)
  · rintro ⟨label, sp, c, rest, rfl, hlabel, hne, hsp, hc, hrest⟩
    have hspaces : Accepts (plus (.char isSpace)) sp :=
      Accepts.rep false hsp (List.length_pos_iff.mpr hne) fun n hn => by cases hn
    have htopic : Accepts (.rep false 0 none (.char (· ≠ '\n'))) rest := by
      refine Accepts.rep false (fun d hd => decide_eq_true ?_) (Nat.zero_le _) fun n hn => by cases hn
      rintro rfl
      exact hrest hd
    exact ((Accepts.litIgnoringCase hlabel).seq
      (hspaces.seq ((Accepts.char (p := fun c => !isSpace c) (by simp [hc])).seq htopic))).fullmatch

/-- No character but the colon stands for a colon. -/
theorem ignoringCase_colon {d : Char} (h : ignoringCase ':' d = true) : d = ':' := by
  have hlower : d.toLower = ':' := by simpa [ignoringCase] using h
  have htable : ∀ n < 128, (Char.ofNat n).toLower = ':' → Char.ofNat n = ':' := by decide +kernel
  have hd := htable d.toNat (Pem.toNat_lt_of_toLower (by rw [hlower]; decide))
  rw [Char.ofNat_toNat] at hd
  exact hd hlower

/-- The label of a hint ends with the first colon. -/
theorem afterColon_append {w : Text} (hw : w.all (fun c => !ignoringCase c ':') = true)
    (rest : Text) : ∀ {label : Text},
    List.Forall₂ (fun c d => ignoringCase c d = true) (w ++ [':']) label → afterColon (label ++ rest) = rest := by
  induction w with
  | nil =>
    intro label h
    cases h with
    | cons hd htail =>
      cases htail
      rw [ignoringCase_colon hd]
      rfl
  | cons c w ih =>
    intro label h
    rw [List.all_cons, Bool.and_eq_true] at hw
    cases h with
    | @cons _ d _ label hd htail =>
      have hne : d ≠ ':' := by
        rintro rfl
        rw [hd] at hw
        exact absurd hw.1 (by decide)
      rw [List.cons_append, afterColon, List.dropWhile_cons_of_pos (by simpa using hne)]
      exact ih hw.2 htail

theorem IsHint.afterColon (h : IsHint line) : ∃ label sp c rest, line = label ++ (sp ++ c :: rest) ∧
    label.length = summaryHintLabel.length ∧
    Escalation.afterColon line = sp ++ c :: rest ∧ isSpace c = false := by
  obtain ⟨label, sp, c, rest, rfl, hlabel, -, -, hc, -⟩ := h.parts
  have hparts : "Expand for details about:".toList = "Expand for details about".toList ++ [':'] := by
    rw [toList_eq rfl, toList_eq rfl]
    rfl
  have hlength : "Expand for details about:".toList.length = summaryHintLabel.length := by
    rw [summaryHintLabel_eq, toList_eq rfl]
    rfl
  have hwords : "Expand for details about".toList.all (fun c => !ignoringCase c ':') = true := by
    rw [toList_eq rfl]
    decide
  rw [hparts] at hlabel
  exact ⟨label, sp, c, rest, rfl, hlabel.length_eq.symm.trans (hparts ▸ hlength), afterColon_append hwords _ hlabel, hc⟩

/-- A hint starts with its letter. -/
theorem IsHint.first (h : IsHint line) : ∃ c rest, line = c :: rest ∧ ignoringCase 'E' c = true := by
  obtain ⟨label, sp, d, rest, rfl, hlabel, -⟩ := h.parts
  cases hlabel with
  | cons hc _ => exact ⟨_, _, rfl, hc⟩

theorem ignoringCase_e {c : Char} (h : ignoringCase 'E' c = true) : c = 'E' ∨ c = 'e' := by
  have hlower : c.toLower = 'e' := by simpa [ignoringCase] using h
  have htable : ∀ n < 128, (Char.ofNat n).toLower = 'e' → Char.ofNat n = 'E' ∨ Char.ofNat n = 'e' := by decide +kernel
  have hc := htable c.toNat (Pem.toNat_lt_of_toLower (by rw [hlower]; decide))
  rw [Char.ofNat_toNat] at hc
  exact hc hlower

theorem hintStart_parts : hintStart = "Expand for details about:".toList ++ [' '] := by
  rw [hintStart_eq, toList_eq rfl]
  rfl

/-- A topic behind the plain label is a hint. -/
theorem isHint_plain {topic : Text} (hne : topic ≠ []) (htrim : IsTrimmed topic)
    (hline : '\n' ∉ topic) : IsHint (hintStart ++ topic) := by
  cases topic with
  | nil => exact absurd rfl hne
  | cons c rest =>
    have hspace : ∀ d ∈ [' '], isSpace d = true := forall_mem_of_all (by decide)
    have hlabel : List.Forall₂ (fun c d => ignoringCase c d = true)
        "Expand for details about:".toList "Expand for details about:".toList :=
      List.forall₂_same.mpr fun d _ => by simp [ignoringCase]
    refine ⟨_, [' '], c, rest, ?_, hlabel, List.cons_ne_nil _ _, hspace, htrim.first c rfl,
      fun hmem => hline (List.mem_cons_of_mem _ hmem)⟩
    rw [hintStart_parts, List.append_assoc]

/-! ## Plain forms -/

/-- What the plain form of a line is: a hint that has the line's breaks and tags only. -/
structure IsPlain (line hint : Text) : Prop where
  isHint : isExpandHint (strip hint) = true
  first : ∀ c ∈ hint.head?, isSpace c = false
  noBreak : (∀ c ∈ line, isLineBreak c = false) → ∀ c ∈ hint, isLineBreak c = false
  last : ∀ c ∈ hint.getLast?, isSpace c = false
  needle : ∀ tail, '<' :: tail <:+: hint → '<' :: tail <:+: line

theorem isLineBreak_newline : isLineBreak '\n' = true := by decide

/-- A hint is plain when its topic stands in the line. -/
theorem isPlain_topic {topic : Text} (hne : topic ≠ []) (htrim : IsTrimmed topic)
    (hnewline : '\n' ∉ topic) (hin : topic <:+: line) :
    IsPlain line (hintStart ++ topic) := by
  have hlast : (hintStart ++ topic).getLast? = topic.getLast? := List.getLast?_append_of_ne_nil _ hne
  have hwhole : IsTrimmed (hintStart ++ topic) := by
    refine ⟨fun c hc => ?_, fun c hc => htrim.last c (hlast ▸ hc)⟩
    rw [← Option.some.inj (show some 'E' = some c from hc)]
    decide
  refine ⟨?_, hwhole.first, fun hplain c hc => ?_, fun c hc => htrim.last c (hlast ▸ hc), fun tail h => ?_⟩
  · rw [hwhole.strip_eq]
    exact isExpandHint_iff.mpr (isHint_plain hne htrim hnewline)
  · obtain hc | hc := List.mem_append.mp hc
    · exact forall_mem_of_all (P := fun c => isLineBreak c = false) (by decide) c hc
    · exact hplain c (hin.subset hc)
  · exact (infix_of_append (by decide) h).trans hin

theorem undecorated_some {mark : Char} {candidate : Text} (h : undecorated mark line = some candidate) :
    candidate <:+: line ∨ ∃ label rest, candidate = label ++ rest ∧
      label.length = summaryHintLabel.length ∧ rest <:+: line := by
  rw [undecorated] at h
  split at h
  · obtain rfl := Option.some.inj h
    by_cases hlong : summaryHintLabel.length ≤ (line.drop (line.takeWhile (· = mark)).length).length
    · exact .inr ⟨_, _, rfl, List.length_take_of_le hlong,
        (List.drop_suffix _ _).isInfix.trans (List.drop_suffix _ _).isInfix⟩
    · have hshort := Nat.le_of_lt (Nat.not_le.mp hlong)
      rw [List.take_of_length_le hshort, List.drop_eq_nil_of_le (hshort.trans (Nat.le_add_right _ _)), List.append_nil]
      exact .inl (List.drop_suffix _ _).isInfix
  · split at h
    · obtain rfl := Option.some.inj h
      exact .inl ((infix_strip _).trans (infix_slice _ _ _))
    · cases h

theorem strip_ne_nil {sp rest : Text} {c : Char} (hc : isSpace c = false) : strip (sp ++ c :: rest) ≠ [] := by
  intro hnil
  rw [strip, stripBy, List.rdropWhile_eq_nil_iff] at hnil
  have hmem : c ∈ (sp ++ c :: rest).dropWhile isSpace := by
    rw [List.dropWhile_append]
    split
    · rw [List.dropWhile_cons_of_neg (by rw [hc]; decide)]
      exact List.mem_cons_self
    · exact List.mem_append_right _ List.mem_cons_self
  rw [hnil c hmem] at hc
  cases hc

/-- A hint that is made plain is plain. -/
theorem plainExpandHint_isPlain (hnewline : '\n' ∉ line) (h : plainExpandHint line = some hint) :
    IsPlain line hint := by
  cases line with
  | nil => cases h
  | cons mark rest =>
    rw [plainExpandHint] at h
    split at h
    · cases h
    · cases hcandidate : undecorated mark (mark :: rest) with
      | none =>
        rw [hcandidate] at h
        cases h
      | some candidate =>
        rw [hcandidate] at h
        simp only at h
        split at h
        · next hhint =>
          obtain rfl := Option.some.inj h
          obtain ⟨label, sp, c, topic, hline, hlength, hafter, hc⟩ := (isExpandHint_iff.mp hhint).afterColon
          have hin : afterColon candidate <:+: mark :: rest := by
            obtain hwhole | ⟨label', rest', hcut, hlength', hin⟩ := undecorated_some hcandidate
            · have hsuffix : afterColon candidate <:+ candidate := by
                rw [hafter, hline]
                exact List.suffix_append _ _
              exact hsuffix.isInfix.trans hwhole
            · obtain ⟨-, hrest⟩ := List.append_inj (hline.symm.trans hcut) (hlength.trans hlength'.symm)
              rw [hafter, hrest]
              exact hin
          have htopic := (infix_strip (afterColon candidate)).trans hin
          refine isPlain_topic ?_ (isTrimmed_strip _) (fun hmem => hnewline (htopic.subset hmem)) htopic
          rw [hafter]
          exact strip_ne_nil hc
        · cases h

/-! ## Rewritten lines -/

/-- A line that was rewritten at its start: what is left of it, or that behind the plain label. -/
def IsRewriting (line out : Text) : Prop :=
  ∃ back, back <:+ line ∧ (out = back ∨ out = "Expand for details about:".toList ++ back)

theorem rewriteHint_eq (a : Re) (replacement : Text) (tag : String) (state : Text × List String) :
    (rewriteHint a replacement tag state).1 = state.1 ∨ ∃ back, back <:+ state.1 ∧
    (rewriteHint a replacement tag state).1 = replacement ++ back := by
  rw [rewriteHint, subStart]
  cases matchText a [] state.1 with
  | none => exact .inl rfl
  | some m => exact .inr ⟨_, List.drop_suffix _ _, rfl⟩

theorem rewriteHint_suffix (a : Re) (tag : String) (state : Text × List String) :
    (rewriteHint a [] tag state).1 <:+ state.1 := by
  obtain h | ⟨back, hback, h⟩ := rewriteHint_eq a [] tag state
  · rw [h]
  · rwa [h, List.nil_append]

/-- A rewriting that is a hint is plain. -/
theorem IsRewriting.isPlain {out : Text} (h : IsRewriting line out) (hlast : ∀ c ∈ line.getLast?, isSpace c = false)
    (hhint : isExpandHint out = true) : IsPlain line out := by
  have hIsHint := isExpandHint_iff.mp hhint
  obtain ⟨back, hback, hout⟩ := h
  have hne : back ≠ [] := by
    rintro rfl
    obtain rfl | rfl := hout
    · obtain ⟨c, rest, hnil, -⟩ := hIsHint.first
      cases hnil
    · exact absurd hhint (by decide +kernel)
  have hsame : out.getLast? = line.getLast? := by
    obtain ⟨front, rfl⟩ := hback
    rw [List.getLast?_append_of_ne_nil _ hne]
    obtain rfl | rfl := hout
    · rfl
    · exact List.getLast?_append_of_ne_nil _ hne
  have htrim : IsTrimmed out := by
    refine ⟨fun c hc => ?_, fun c hc => hlast c (hsame ▸ hc)⟩
    obtain ⟨d, rest, rfl, hd⟩ := hIsHint.first
    rw [← Option.some.inj hc]
    obtain rfl | rfl := ignoringCase_e hd
    · decide
    · decide
  refine ⟨by rwa [htrim.strip_eq], htrim.first, fun hplain c hc => ?_, htrim.last, fun tail hin => ?_⟩
  · obtain rfl | rfl := hout
    · exact hplain c (hback.subset hc)
    · obtain hc | hc := List.mem_append.mp hc
      · exact forall_mem_of_all (P := fun c => isLineBreak c = false) (by decide) c hc
      · exact hplain c (hback.subset hc)
  · obtain rfl | rfl := hout
    · exact hin.trans hback.isInfix
    · exact (infix_of_append (by decide) hin).trans hback.isInfix

theorem IsPlain.of_rewriting {out : Text} (h : IsRewriting line out) (hplain : IsPlain out hint) :
    IsPlain line hint := by
  obtain ⟨back, hback, hout⟩ := h
  refine ⟨hplain.isHint, hplain.first, fun hline => hplain.noBreak fun c hc => ?_, hplain.last, fun tail hin => ?_⟩
  · obtain rfl | rfl := hout
    · exact hline c (hback.subset hc)
    · obtain hc | hc := List.mem_append.mp hc
      · exact forall_mem_of_all (P := fun c => isLineBreak c = false) (by decide) c hc
      · exact hline c (hback.subset hc)
  · have hin := hplain.needle tail hin
    obtain rfl | rfl := hout
    · exact hin.trans hback.isInfix
    · exact (infix_of_append (by decide) hin).trans hback.isInfix

theorem normalizeExpandHint_isPlain (hnewline : '\n' ∉ line) (hlast : ∀ c ∈ line.getLast?, isSpace c = false)
    (h : (normalizeExpandHint line).1 = some hint) : IsPlain line hint := by
  have hlist := rewriteHint_suffix listMarkRe "hint_list" (line, [])
  have hheading := rewriteHint_suffix headingMarkRe "hint_heading" (rewriteHint listMarkRe [] "hint_list" (line, []))
  have hback := hheading.trans hlist
  have hrewriting : IsRewriting line (rewriteHint boldLabelRe "Expand for details about:".toList "hint_bold_label"
      (rewriteHint headingMarkRe [] "hint_heading" (rewriteHint listMarkRe [] "hint_list" (line, [])))).1 := by
    obtain hsame | ⟨back, hsuffix, hbold⟩ :=
      rewriteHint_eq boldLabelRe "Expand for details about:".toList "hint_bold_label"
      (rewriteHint headingMarkRe [] "hint_heading" (rewriteHint listMarkRe [] "hint_list" (line, [])))
    · exact ⟨_, hback, .inl hsame⟩
    · exact ⟨back, hsuffix.trans hback, .inr hbold⟩
  rw [normalizeExpandHint] at h
  simp only at h
  split at h
  · next hhint =>
    obtain rfl := Option.some.inj h
    exact hrewriting.isPlain hlast hhint
  · refine IsPlain.of_rewriting hrewriting (plainExpandHint_isPlain (fun hmem => hnewline ?_) h)
    obtain ⟨back, hback, hout | hout⟩ := hrewriting
    · exact hback.subset (hout ▸ hmem)
    · rw [hout] at hmem
      obtain hmem | hmem := List.mem_append.mp hmem
      · exact absurd hmem (by decide)
      · exact hback.subset hmem

theorem isPlain_strip (h : IsPlain (strip line) hint) : IsPlain line hint :=
  ⟨h.isHint, h.first, fun hline => h.noBreak fun c hc => hline c ((infix_strip line).subset hc), h.last,
    fun tail hin => (h.needle tail hin).trans (infix_strip line)⟩

/-- A last line that is a hint stays as it is, and any other is brought into its plain form. -/
theorem plainLine_isPlain (hbreak : ∀ c ∈ line, isLineBreak c = false) {r : Text × List String}
    (h : plainLine line = some r) :
    r.1 = line ∧ isExpandHint (strip line) = true ∨ IsPlain line r.1 := by
  have hnewline : '\n' ∉ strip line := fun hmem => by
    have hplain := hbreak _ ((infix_strip line).subset hmem)
    rw [isLineBreak_newline] at hplain
    cases hplain
  rw [plainLine] at h
  split at h
  · next hhint =>
    obtain rfl := Option.some.inj h
    exact .inl ⟨rfl, hhint⟩
  · cases hplain : plainExpandHint (strip line) with
    | some hint =>
      rw [hplain] at h
      obtain rfl := Option.some.inj h
      exact .inr (isPlain_strip (plainExpandHint_isPlain hnewline hplain))
    | none =>
      rw [hplain] at h
      obtain ⟨hint, hhint, rfl⟩ := Option.map_eq_some_iff.mp h
      exact .inr (isPlain_strip (normalizeExpandHint_isPlain hnewline (isTrimmed_strip line).last hhint))

/-- A line whose stripped text is a hint stays as it is. -/
theorem plainLine_hint (h : isExpandHint (strip line) = true) : plainLine line = some (line, []) := by
  rw [plainLine, if_pos h]

end Escalation
