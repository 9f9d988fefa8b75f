import LcmX.SummaryContractHint

/-!
# The strict form of an accepted summary

A body that is accepted has no opening tag and ends in a hint. Written between plain tags
it is accepted as it is, unless its hint or its start brings a tag of its own to an edge.
-/
namespace Escalation

open Regex PyText

/-! ## Control lines -/

/-- A hint is no control line. -/
theorem isControl_hint {line : Text} (h : IsHint line) : isControl line = false := by
  rw [← Bool.not_eq_true]
  intro hcontrol
  obtain ⟨c, rest, rfl, hc⟩ := h.first
  rw [isControl, fullmatch, Option.isSome_map, List.find?_isSome] at hcontrol
  obtain ⟨t, ht, -⟩ := hcontrol
  obtain ⟨a, ha, hrun⟩ := mem_run_oneOf.mp ht
  obtain ⟨word, hword, rfl⟩ := List.mem_map.mp ha
  obtain ⟨v, hreach, -, hsame⟩ := Yields.litIgnoringCase word hrun
  -- no control word starts with the letter of a hint
  have hstarts : ∀ letter, word.head? = some letter → ignoringCase letter c = true := by
    intro letter hletter
    cases hsame with
    | nil => cases hletter
    | cons hd _ =>
      obtain ⟨rfl, -⟩ := List.cons_eq_cons.mp hreach.2
      rwa [← Option.some.inj hletter]
  have hwords : ∀ w ∈ ["[SILENT]", "[NO_REPLY]", "SILENT", "NO_REPLY"].map String.toList,
      ∃ letter, w.head? = some letter ∧ ignoringCase letter 'E' = false ∧ ignoringCase letter 'e' = false := by
    intro w hw
    simp only [List.map_cons, List.map_nil, List.mem_cons, List.not_mem_nil, or_false] at hw
    rcases hw with rfl | rfl | rfl | rfl
    · exact ⟨'[', rfl, by decide, by decide⟩
    · exact ⟨'[', rfl, by decide, by decide⟩
    · exact ⟨'S', rfl, by decide, by decide⟩
    · exact ⟨'N', rfl, by decide, by decide⟩
  obtain ⟨letter, hletter, hE, he⟩ := hwords word hword
  have hmatch := hstarts letter hletter
  obtain rfl | rfl := ignoringCase_e hc
  · rw [hE] at hmatch
    cases hmatch
  · rw [he] at hmatch
    cases hmatch

/-- No control line stands behind a hint. -/
theorem withoutControls_hint {front line : Text} (hfront : ∀ c ∈ front.getLast?, isLineBreak c = true)
    (hplain : ∀ c ∈ line, isLineBreak c = false) (hne : line ≠ []) (hhint : isExpandHint (strip line) = true) :
    withoutControls (front ++ line) = (front ++ line, []) := by
  have hlast := splitlines_last hfront hplain hne
  obtain ⟨lines, hlines⟩ := List.getLast?_eq_some_iff.mp hlast
  have hstrip : strip line ≠ [] := by
    obtain ⟨c, rest, hline, -⟩ := (isExpandHint_iff.mp hhint).first
    rw [hline]
    exact List.cons_ne_nil _ _
  have hget : (splitlines (front ++ line)).getD lines.length [] = line := by
    rw [hlines]
    simp
  have hcontrols : controls (splitlines (front ++ line)) = 0 := by
    have hnonempty : ∃ before, nonemptyLines (splitlines (front ++ line)) = before ++ [lines.length] := by
      have hlen : (splitlines (front ++ line)).length = lines.length + 1 := by simp [hlines]
      rw [nonemptyLines, hlen, List.range_succ, List.filter_append]
      refine ⟨_, congrArg _ ?_⟩
      rw [List.filter_cons_of_pos (by rw [hget]; simpa using hstrip), List.filter_nil]
    obtain ⟨before, hbefore⟩ := hnonempty
    rw [controls, hbefore, List.reverse_append, List.reverse_singleton, List.singleton_append,
      List.takeWhile_cons_of_neg, List.length_nil]
    rw [hget, isControl_hint (isExpandHint_iff.mp hhint)]
    decide
  rw [withoutControls]
  simp only [hcontrols]
  exact if_neg fun h => absurd h.1 (by decide)

theorem infix_withoutControls {needle body : Text} (hline : '\n' ∉ needle) (hne : needle ≠ [])
    (h : needle <:+: (withoutControls body).1) :
    needle <:+: body := by
  rw [withoutControls] at h
  split at h
  · have hjoined := h.trans (List.rdropWhile_prefix isSpace _).isInfix
    obtain ⟨line, hmem, hin⟩ := infix_of_intercalate hline hne hjoined
    exact hin.trans (infix_of_mem_splitlines (List.mem_of_mem_take hmem))
  · exact h

/-- A trimmed body is trimmed without its controls, and not empty. -/
theorem withoutControls_trimmed {body : Text} (h : IsTrimmed body) (hne : body ≠ []) :
    IsTrimmed (withoutControls body).1 ∧ (withoutControls body).1 ≠ [] := by
  rw [withoutControls]
  split
  · cases body with
    | nil => exact absurd rfl hne
    | cons c rest =>
      have hspace := h.first c rfl
      have hbreak : isLineBreak c = false := by
        rw [← Bool.not_eq_true]
        intro hbreak
        rw [isSpace_of_isLineBreak hbreak] at hspace
        cases hspace
      obtain ⟨line, lines, hlines⟩ := splitlines_first hbreak rest
      -- what is kept starts with the first line
      have hjoin : ∀ n, ∃ joined, List.intercalate ['\n'] ((splitlines (c :: rest)).take (n + 1)) = c :: joined := by
        intro n
        rw [hlines, List.take_succ_cons]
        cases lines.take n with
        | nil => exact ⟨line, by simp⟩
        | cons next more => exact ⟨line ++ '\n' :: List.intercalate ['\n'] (next :: more), by simp [List.intercalate]⟩
      obtain ⟨joined, hjoined⟩ := hjoin ((nonemptyLines (splitlines (c :: rest))).getD
        ((nonemptyLines (splitlines (c :: rest))).length - controls (splitlines (c :: rest)) - 1) 0)
      simp only
      rw [hjoined, rstrip]
      have hkept : (c :: joined).rdropWhile isSpace ≠ [] := by
        intro hnil
        rw [List.rdropWhile_eq_nil_iff] at hnil
        rw [hnil c List.mem_cons_self] at hspace
        cases hspace
      refine ⟨⟨fun d hd => ?_, last_rdropWhile isSpace _⟩, hkept⟩
      have hfirst := head_rdropWhile hd
      rwa [← Option.some.inj hfirst]
  · exact ⟨h, hne⟩

/-! ## Counting -/

theorem countFrom_succ (needle : Text) (fuel : Nat) (text : Text) : countFrom needle (fuel + 1) text =
    if needle <+: text then 1 + countFrom needle fuel (text.drop needle.length)
    else
      match text with
      | [] => 0
      | _ :: rest => countFrom needle fuel rest := by
  cases text <;> rfl

theorem countFrom_eq_zero {needle : Text} (hne : needle ≠ []) (fuel : Nat) : ∀ {text : Text}, text.length < fuel →
    (countFrom needle fuel text = 0 ↔ ¬ needle <:+: text) := by
  induction fuel with
  | zero => exact fun h => absurd h (Nat.not_lt_zero _)
  | succ fuel ih =>
    intro text h
    rw [countFrom_succ]
    split
    · next hstarts => exact iff_of_false (by omega) (not_not_intro hstarts.isInfix)
    · next hstarts =>
      cases text with
      | nil => exact iff_of_true rfl fun hin => hne (List.infix_nil.mp hin)
      | cons c rest =>
        rw [List.infix_cons_iff, not_or, ← ih (by simpa using h)]
        exact (and_iff_right hstarts).symm

theorem count_append {needle : Text} (hne : needle ≠ []) (rest : Text) :
    count needle (needle ++ rest) = 1 ↔ ¬ needle <:+: rest := by
  have hpos := List.length_pos_iff.mpr hne
  rw [count, countFrom_succ, if_pos (List.prefix_append _ _), List.drop_left,
    ← countFrom_eq_zero hne (needle ++ rest).length (by rw [List.length_append]; omega)]
  omega

/-! ## What is accepted -/

/-- `secrets.token_hex` -/
def IsHex (nonce : Text) : Prop := nonce ≠ [] ∧ ∀ c ∈ nonce, c.isDigit = true ∨ c ∈ "abcdefABCDEF".toList

/-- The body that a reply holds: without its envelope, its wrapper and the control lines behind its hint. -/
def sentBody (content nonce : Text) : Text := (withoutControls (unwrapped ((envelope content).body nonce)).1).1

/-- What stands before the hint. -/
def sentFront (content nonce : Text) : Text := (sentBody content nonce).take
    ((sentBody content nonce).length - (lastLine (sentBody content nonce)).length)

/-- The hint in its plain form. -/
def sentHint (content nonce : Text) : Text := ((plainLine (lastLine (sentBody content nonce))).map Prod.fst).getD []

/-- The tags that a hint line brings to the end of a body: the closing tag, or the one of a wrapper
that the body starts with. -/
def LeavesTag (front hint : Text) : Prop :=
  summaryCloser <:+ hint ∨ ∃ rest topic, front = wrapperOpener ++ rest ∧ hint = topic ++ wrapperCloser ∧
    ¬ wrapperOpener <:+: rest ++ topic ∧ ¬ wrapperCloser <:+: rest ++ topic

/-- The reply that writes a body between plain tags. -/
def strictReply (nonce body : Text) : Text := openingTag nonce ++ '\n' :: (body ++ '\n' :: summaryCloser)

section

variable {isWord : Char → Bool} {encoder : Option Encoder} {maxTokens : Int}

/-- A failed check accepts nothing. -/
theorem not_accepted {check : String} (hcheck : check ≠ "") {b : Text} {tolerated : List String} :
    (([], check, []) : Text × String × List String) ≠ (b, "", tolerated) :=
  fun h => hcheck (congrArg (fun r => r.2.1) h)

theorem failedCheck_ne (unclosed : Bool) {check : String} (h : check ≠ "") :
    (if unclosed = true then "envelope" else check) ≠ "" := by
  cases unclosed with
  | false => exact h
  | true => exact (by decide : ("envelope" : String) ≠ "")

/-- What an accepted body has passed. -/
theorem checkBody_accepts {e : Envelope} {body b : Text} {notes tolerated : List String}
    (h : checkBody isWord encoder e body notes maxTokens = (b, "", tolerated)) :
    body ≠ [] ∧ minimumBodyTokens maxTokens ≤ countTokensWith encoder b ∧
      ∃ hint, closingHint (withoutControls body).1 = some hint ∧ b = hint.1 ∧
      tolerated = notes ++ ((withoutControls body).2 ++ hint.2) := by
  rw [checkBody] at h
  simp only at h
  split at h
  · exact absurd h (not_accepted (by decide))
  · split at h
    · exact absurd h (not_accepted (failedCheck_ne _ (by decide)))
    · next hlong =>
      cases hclosing : closingHint (withoutControls body).1 with
      | none =>
        rw [hclosing] at h
        exact absurd h (not_accepted (failedCheck_ne _ (by decide)))
      | some hint =>
        rw [hclosing] at h
        simp only at h
        split at h
        · exact absurd h (not_accepted (failedCheck_ne _ (by decide)))
        · next hkept =>
          obtain ⟨rfl, -, rfl⟩ : hint.1 = b ∧ True ∧ notes ++ ((withoutControls body).2 ++ hint.2) =
              tolerated := by simpa using h
          rw [decide_eq_true_eq, not_lt] at hkept hlong
          refine ⟨?_, hkept, hint, rfl, rfl, rfl⟩
          rintro rfl
          have hmin : (4 : Int) ≤ minimumBodyTokens maxTokens := by
            rw [minimumBodyTokens]
            omega
          have hzero : countTokensWith encoder [] = 0 := rfl
          rw [hzero] at hlong
          omega

theorem checkSummaryContract_accepts {content nonce b : Text} {tolerated : List String} (hnonce : nonce ≠ [])
    (h : checkSummaryContract isWord encoder content nonce maxTokens = (b, "", tolerated)) :
    openingTag nonce <+: (envelope content).stripped ∧ count (openingTag nonce) (envelope content).stripped = 1 ∧
      checkBody isWord encoder (envelope content) (unwrapped ((envelope content).body nonce)).1
        ((envelope content).notes ++ (unwrapped ((envelope content).body nonce)).2) maxTokens = (b, "", tolerated) := by
  rw [checkSummaryContract, if_neg hnonce] at h
  simp only at h
  split at h
  · exact absurd h (not_accepted (by decide))
  · next hstarts =>
    split at h
    · exact absurd h (not_accepted (by decide))
    · split at h
      · exact absurd h (not_accepted (failedCheck_ne _ (by decide)))
      · next hcount => exact ⟨not_not.mp hstarts, not_not.mp hcount, h⟩

end

/-! ## The body of a reply -/

theorem infix_unwrapped (body : Text) : (unwrapped body).1 <:+: body := by
  rw [unwrapped]
  cases hwrapped : wrappedText body with
  | none => exact List.infix_refl _
  | some inner =>
    simp only
    split
    · exact List.infix_refl _
    · rw [wrappedText] at hwrapped
      split at hwrapped
      · obtain rfl := Option.some.inj hwrapped
        exact (infix_strip _).trans (infix_slice _ _ _)
      · cases hwrapped

theorem isTrimmed_unwrapped {body : Text} (h : IsTrimmed body) : IsTrimmed (unwrapped body).1 := by
  rw [unwrapped]
  split
  · exact h
  · split
    · exact h
    · exact isTrimmed_strip _

namespace Envelope

variable (e : Envelope) (nonce : Text)

theorem isTrimmed_body : IsTrimmed (e.body nonce) := by
  rw [body]
  split
  · exact isTrimmed_strip _
  · exact isTrimmed_strip _

theorem infix_body : e.body nonce <:+: e.stripped.drop (openingTag nonce).length := by
  rw [body]
  split
  · exact infix_strip _
  · exact (infix_strip _).trans (List.take_prefix _ _).isInfix

end Envelope

/-! ## The characters of the tags -/

theorem openingHead_eq : openingHead =
    ['<', 'l', 'c', 'm', '-', 's', 'u', 'm', 'm', 'a', 'r', 'y', ' ', 'n', 'o', 'n', 'c', 'e', '=',
      Char.ofNat 0x22] := toList_eq rfl

theorem openingEnd_eq : openingEnd = [Char.ofNat 0x22, '>'] := toList_eq rfl

theorem summaryCloser_eq : summaryCloser =
    ['<', '/', 'l', 'c', 'm', '-', 's', 'u', 'm', 'm', 'a', 'r', 'y', '>'] := toList_eq rfl

theorem wrapperOpener_eq : wrapperOpener = ['<', 's', 'u', 'm', 'm', 'a', 'r', 'y', '>'] := toList_eq rfl

theorem wrapperCloser_eq : wrapperCloser = ['<', '/', 's', 'u', 'm', 'm', 'a', 'r', 'y', '>'] := toList_eq rfl

theorem openingTag_cons (nonce : Text) : ∃ tail, openingTag nonce = '<' :: tail := by
  rw [openingTag, openingHead_eq]
  exact ⟨_, rfl⟩

theorem openingTag_ne_nil (nonce : Text) : openingTag nonce ≠ [] := by
  obtain ⟨tail, htail⟩ := openingTag_cons nonce
  rw [htail]
  exact List.cons_ne_nil _ _

theorem not_isLineBreak_of_isDigit {c : Char} (h : c.isDigit = true) : isLineBreak c = false := by
  have hval : c.toNat = c.val.toNat := rfl
  have h9 : ('9').val.toNat = 57 := rfl
  have h0 : ('0').val.toNat = 48 := rfl
  simp only [Char.isDigit, Bool.and_eq_true, decide_eq_true_eq, ge_iff_le, UInt32.le_iff_toNat_le] at h
  rw [← Bool.not_eq_true]
  intro hbreak
  simp only [isLineBreak, Bool.or_eq_true, Bool.and_eq_true, decide_eq_true_eq] at hbreak
  omega

theorem openingTag_noBreak {nonce : Text} (h : IsHex nonce) : ∀ c ∈ openingTag nonce, isLineBreak c = false := by
  have hhead : ∀ c ∈ openingHead, isLineBreak c = false := forall_mem_of_all (by rw [openingHead_eq]; decide)
  have hletters : ∀ c ∈ "abcdefABCDEF".toList, isLineBreak c = false :=
    forall_mem_of_all (by rw [toList_eq rfl]; decide)
  have hend : ∀ c ∈ openingEnd, isLineBreak c = false := forall_mem_of_all (by rw [openingEnd_eq]; decide)
  intro c hc
  rw [openingTag, List.mem_append, List.mem_append] at hc
  obtain hc | hc | hc := hc
  · exact hhead c hc
  · exact (h.2 c hc).elim not_isLineBreak_of_isDigit (hletters c)
  · exact hend c hc

/-- A body that is a front of complete lines and a hint on its last line, without an opening tag. -/
structure IsStrictBody (nonce front hint : Text) : Prop where
  complete : ∀ c ∈ front.getLast?, isLineBreak c = true
  noBreak : ∀ c ∈ hint, isLineBreak c = false
  isHint : isExpandHint (strip hint) = true
  trimmed : IsTrimmed (front ++ hint)
  noTag : ¬ openingTag nonce <:+: front ++ hint

theorem ne_nil_of_isExpandHint {hint : Text} (h : isExpandHint (strip hint) = true) : hint ≠ [] := by
  rintro rfl
  obtain ⟨c, rest, hnil, -⟩ := (isExpandHint_iff.mp h).first
  cases hnil

theorem lastLine_append {front line : Text} (hfront : ∀ c ∈ front.getLast?, isLineBreak c = true)
    (hplain : ∀ c ∈ line, isLineBreak c = false)
    (hne : line ≠ []) : lastLine (front ++ line) = line ∧
    (front ++ line).take ((front ++ line).length - line.length) = front := by
  refine ⟨?_, by simp⟩
  rw [lastLine, List.getLastD_eq_getLast?, splitlines_last hfront hplain hne]
  rfl

/-- A tag stands in the front or in the hint, since the front ends a line. -/
theorem infix_front_hint {tag front hint : Text} (htag : ∀ c ∈ tag, isLineBreak c = false)
    (hfront : ∀ c ∈ front.getLast?, isLineBreak c = true)
    (h : tag <:+: front ++ hint) : tag <:+: front ∨ tag <:+: hint := by
  induction front using List.reverseRecOn with
  | nil => exact .inr h
  | append_singleton front c _ =>
    have hbreak : isLineBreak c = true := hfront c (by simp)
    have hnot : c ∉ tag := by
      intro hmem
      rw [htag c hmem] at hbreak
      cases hbreak
    rw [List.append_assoc] at h
    exact (infix_append_cons hnot h).imp_left fun hin => hin.trans (List.prefix_append _ _).isInfix

section

variable {isWord : Char → Bool} {encoder : Option Encoder} {maxTokens : Int}

/-- What an accepted body is. -/
theorem accepted_body {content nonce b : Text} {tolerated : List String} (hhex : IsHex nonce)
    (h : checkSummaryContract isWord encoder content nonce maxTokens = (b, "", tolerated)) :
    b = sentFront content nonce ++ sentHint content nonce ∧
      IsStrictBody nonce (sentFront content nonce) (sentHint content nonce) := by
  obtain ⟨hstarts, hcount, hbody⟩ := checkSummaryContract_accepts hhex.1 h
  obtain ⟨hne, -, hint, hclosing, rfl, -⟩ := checkBody_accepts hbody
  obtain ⟨htrimmed, hsent⟩ :=
    withoutControls_trimmed (isTrimmed_unwrapped ((envelope content).isTrimmed_body nonce)) hne
  have hnotag : ¬ openingTag nonce <:+: sentBody content nonce := by
    intro hin
    have hnewline : '\n' ∉ openingTag nonce := fun hmem => by
      have hplain := openingTag_noBreak hhex _ hmem
      rw [isLineBreak_newline] at hplain
      cases hplain
    have hinside := (infix_withoutControls hnewline (openingTag_ne_nil nonce) hin).trans
      ((infix_unwrapped _).trans ((envelope content).infix_body nonce))
    obtain ⟨rest, hrest⟩ := hstarts
    rw [← hrest, count_append (openingTag_ne_nil nonce)] at hcount
    rw [← hrest, List.drop_left] at hinside
    exact hcount hinside
  have hbreakless : ∀ c ∈ (sentBody content nonce).getLast?, isLineBreak c = false := by
    intro c hc
    rw [← Bool.not_eq_true]
    intro hbreak
    have hspace := htrimmed.last c hc
    rw [isSpace_of_isLineBreak hbreak] at hspace
    cases hspace
  obtain ⟨front, line, hlines, hfront, hplain, hline⟩ := exists_last_line hsent hbreakless
  obtain ⟨hlast, htake⟩ := lastLine_append hfront hplain hline
  have hfronteq : sentFront content nonce = front := by
    rw [sentFront, sentBody, hlines, hlast, htake]
  rw [closingHint] at hclosing
  obtain ⟨r, hr, rfl⟩ := Option.map_eq_some_iff.mp hclosing
  have hhinteq : sentHint content nonce = r.1 := by
    rw [sentHint, sentBody, hr]
    rfl
  have htakes : (withoutControls (unwrapped ((envelope content).body nonce)).1).1.take
      ((withoutControls (unwrapped ((envelope content).body nonce)).1).1.length -
        (lastLine (withoutControls (unwrapped ((envelope content).body nonce)).1).1).length) = front := by
    rw [hlines, hlast, htake]
  rw [hfronteq, hhinteq, htakes]
  rw [hlines, hlast] at hr
  rw [sentBody, hlines] at hnotag
  rw [hlines] at htrimmed
  refine ⟨rfl, ?_⟩
  obtain ⟨hsame, hhint⟩ | hplainform := plainLine_isPlain hplain hr
  · rw [hsame]
    exact ⟨hfront, hplain, hhint, htrimmed, hnotag⟩
  · have hhintne := ne_nil_of_isExpandHint hplainform.isHint
    refine ⟨hfront, hplainform.noBreak hplain, hplainform.isHint, ⟨fun c hc => ?_, fun c hc => ?_⟩, fun hin => ?_⟩
    · cases front with
      | nil => exact hplainform.first c hc
      | cons d front => exact htrimmed.first c hc
    · rw [List.getLast?_append_of_ne_nil _ hhintne] at hc
      exact hplainform.last c hc
    · obtain hin | hin := infix_front_hint (openingTag_noBreak hhex) hfront hin
      · exact hnotag (hin.trans (List.prefix_append _ _).isInfix)
      · obtain ⟨tail, htag⟩ := openingTag_cons nonce
        rw [htag] at hin hnotag
        exact hnotag ((hplainform.needle tail hin).trans (List.suffix_append _ _).isInfix)

end

/-! ## The strict reply -/

namespace IsStrictBody

variable {nonce front hint : Text} (h : IsStrictBody nonce front hint)

theorem newline_not_mem_closer : '\n' ∉ summaryCloser := by
  rw [summaryCloser_eq]
  decide

theorem hint_ne_nil (h : IsStrictBody nonce front hint) : hint ≠ [] := ne_nil_of_isExpandHint h.isHint

theorem isTrimmed_strictReply (nonce body : Text) : IsTrimmed (strictReply nonce body) := by
  refine ⟨fun c hc => ?_, fun c hc => ?_⟩
  · obtain ⟨tail, htag⟩ := openingTag_cons nonce
    rw [strictReply, htag] at hc
    rw [← Option.some.inj hc]
    decide
  · have hcloser : summaryCloser.getLast? = some '>' := by rw [summaryCloser_eq]; rfl
    have hlast : (strictReply nonce body).getLast? = some '>' := by
      have hne : summaryCloser ≠ [] := by rw [summaryCloser_eq]; exact List.cons_ne_nil _ _
      rw [strictReply, List.getLast?_append_of_ne_nil _ (List.cons_ne_nil _ _), ← List.cons_append,
        List.getLast?_append_of_ne_nil _ (List.cons_ne_nil _ _), List.getLast?_cons_of_ne_nil hne, hcloser]
    rw [hlast] at hc
    rw [← Option.some.inj hc]
    decide

/-- The reply before its closing tag. -/
theorem strictReply_eq (nonce body : Text) :
    strictReply nonce body = (openingTag nonce ++ '\n' :: (body ++ ['\n'])) ++ summaryCloser := by
  simp [strictReply]

theorem take_strictReply (nonce body : Text) :
    (strictReply nonce body).take ((strictReply nonce body).length - summaryCloser.length) =
      openingTag nonce ++ '\n' :: (body ++ ['\n']) := by
  rw [strictReply_eq, List.length_append, Nat.add_sub_cancel, List.take_left]

theorem rstrip_before (h : IsStrictBody nonce front hint) :
    rstrip (openingTag nonce ++ '\n' :: (front ++ hint ++ ['\n'])) = openingTag nonce ++ '\n' :: (front ++ hint) := by
  have hparts : openingTag nonce ++ '\n' :: (front ++ hint ++ ['\n']) =
      (openingTag nonce ++ '\n' :: (front ++ hint)) ++ ['\n'] := by simp
  have hne : front ++ hint ≠ [] := List.append_ne_nil_of_right_ne_nil _ h.hint_ne_nil
  rw [hparts, rstrip, List.rdropWhile_concat_pos _ _ _ (by decide)]
  apply rdropWhile_of_last
  intro c hc
  rw [List.getLast?_append_of_ne_nil _ (List.cons_ne_nil _ _), List.getLast?_cons_of_ne_nil hne] at hc
  exact h.trimmed.last c hc

/-- The closing tag ends the body where it ends the hint. -/
theorem closer_suffix (h : IsStrictBody nonce front hint) :
    summaryCloser <:+ openingTag nonce ++ '\n' :: (front ++ hint) ↔ summaryCloser <:+ hint := by
  constructor
  · intro hsuffix
    have hbody := suffix_of_append_cons newline_not_mem_closer hsuffix
    have hcomplete := h.complete
    cases front using List.reverseRecOn with
    | nil => exact hbody
    | append_singleton front c =>
      have hbreak : isLineBreak c = true := hcomplete c (by simp)
      have hnot : c ∉ summaryCloser := by
        intro hmem
        have hplain : ∀ c ∈ summaryCloser, isLineBreak c = false := forall_mem_of_all (by rw [summaryCloser_eq]; decide)
        rw [hplain c hmem] at hbreak
        cases hbreak
      rw [List.append_assoc] at hbody
      exact suffix_of_append_cons hnot hbody
  · intro hsuffix
    exact hsuffix.trans (List.suffix_append_of_suffix (List.suffix_cons_iff.mpr (.inr (List.suffix_append _ _))))

theorem envelope_strictReply (h : IsStrictBody nonce front hint) (hcloser : ¬ summaryCloser <:+ hint) :
    envelope (strictReply nonce (front ++ hint)) = ⟨strictReply nonce (front ++ hint), summaryCloser, []⟩ := by
  have hends : summaryCloser <:+ strictReply nonce (front ++ hint) := by
    rw [strictReply_eq]
    exact List.suffix_append _ _
  rw [envelope]
  simp only [(isTrimmed_strictReply _ _).strip_eq]
  rw [if_neg fun hnot => hnot.1 hends, if_pos hends, take_strictReply, h.rstrip_before,
    if_neg (h.closer_suffix.not.mpr hcloser)]

theorem tolerated_strictReply (h : IsStrictBody nonce front hint) (hcloser : summaryCloser <:+ hint) :
    (envelope (strictReply nonce (front ++ hint))).tolerated = ["repeated_closer"] := by
  have hends : summaryCloser <:+ strictReply nonce (front ++ hint) := by
    rw [strictReply_eq]
    exact List.suffix_append _ _
  rw [envelope]
  simp only [(isTrimmed_strictReply _ _).strip_eq]
  rw [if_neg fun hnot => hnot.1 hends, if_pos hends, take_strictReply, h.rstrip_before,
    if_pos (h.closer_suffix.mpr hcloser)]

theorem unclosed_strictReply (nonce body : Text) :
    (⟨strictReply nonce body, summaryCloser, []⟩ : Envelope).unclosed = false := by
  have hends : summaryCloser <:+ strictReply nonce body := by
    rw [strictReply_eq]
    exact List.suffix_append _ _
  rw [Envelope.unclosed, decide_eq_true hends]
  rfl

theorem body_strictReply (h : IsStrictBody nonce front hint) :
    (⟨strictReply nonce (front ++ hint), summaryCloser, []⟩ : Envelope).body nonce = front ++ hint := by
  rw [Envelope.body, unclosed_strictReply, if_neg (by decide)]
  have hslice : slice (strictReply nonce (front ++ hint)) (openingTag nonce).length
      ((strictReply nonce (front ++ hint)).length - summaryCloser.length) = ['\n'] ++ (front ++ hint ++ ['\n']) := by
    rw [slice, ← List.drop_take, take_strictReply, List.drop_left]
    rfl
  simp only
  rw [hslice, strip, stripBy_append_spaces (by simp; decide) (by simp; decide)]
  exact h.trimmed.strip_eq

theorem count_strictReply (hhex : IsHex nonce) (h : IsStrictBody nonce front hint) :
    count (openingTag nonce) (strictReply nonce (front ++ hint)) = 1 := by
  rw [strictReply, count_append (openingTag_ne_nil nonce)]
  have hnewline : '\n' ∉ openingTag nonce := fun hmem => by
    have hplain := openingTag_noBreak hhex _ hmem
    rw [isLineBreak_newline] at hplain
    cases hplain
  intro hin
  obtain hnil | hrest := infix_append_cons (a := []) hnewline hin
  · exact openingTag_ne_nil nonce (List.infix_nil.mp hnil)
  · obtain hbody | hcloser := infix_append_cons hnewline hrest
    · exact h.noTag hbody
    · have hle := hcloser.length_le
      have hhead : openingHead.length = 20 := by rw [openingHead_eq]; rfl
      have htag : summaryCloser.length = 14 := by rw [summaryCloser_eq]; rfl
      rw [openingTag, List.length_append, hhead, htag] at hle
      omega

/-! ## Wrappers -/

theorem slice_wrapped (front text back : Text) :
    slice (front ++ (text ++ back)) front.length ((front ++ (text ++ back)).length - back.length) = text := by
  have hlen : (front ++ (text ++ back)).length - back.length - front.length = text.length := by
    simp only [List.length_append]
    omega
  rw [slice, List.drop_left, hlen, List.take_left]

theorem wrappedText_eq_some {body inner : Text} : wrappedText body = some inner ↔
    body = wrapperOpener ++ (inner ++ wrapperCloser) := by
  rw [wrappedText]
  constructor
  · intro hwrapped
    split at hwrapped
    · next hends =>
      obtain ⟨rest, hrest⟩ := hends.1
      obtain ⟨text, htext⟩ := hends.2
      rw [← hrest, List.drop_left] at htext
      obtain rfl := Option.some.inj hwrapped
      rw [← hrest, ← htext, slice_wrapped]
    · cases hwrapped
  · rintro rfl
    rw [List.drop_left, if_pos ⟨List.prefix_append _ _, List.suffix_append _ _⟩, slice_wrapped]

/-- A wrapper around the body is an opener in front and a closer behind the hint. -/
theorem wrapped_iff (h : IsStrictBody nonce front hint) {inner : Text} : wrappedText (front ++ hint) = some inner ↔
    ∃ rest topic, front = wrapperOpener ++ rest ∧ hint = topic ++ wrapperCloser ∧ inner = rest ++ topic := by
  rw [wrappedText_eq_some]
  constructor
  · intro heq
    obtain ⟨a, hopener, hhint⟩ | ⟨rest, hfront, hrest⟩ := List.append_eq_append_iff.mp heq
    · -- the opener has no line break, and no hint starts with it
      have hplain : ∀ c ∈ wrapperOpener, isLineBreak c = false := forall_mem_of_all (by rw [wrapperOpener_eq]; decide)
      have hnil : front = [] := by
        cases hlast : front.getLast? with
        | none => exact List.getLast?_eq_none_iff.mp hlast
        | some c =>
          have hbreak := h.complete c hlast
          rw [hplain c (hopener ▸ List.mem_append_left _ (List.mem_of_getLast? hlast))] at hbreak
          cases hbreak
      have hfirst := h.trimmed
      rw [hnil, List.nil_append] at hfirst hopener
      obtain ⟨c, tail, hc, hletter⟩ := (isExpandHint_iff.mp (hfirst.strip_eq ▸ h.isHint)).first
      rw [hhint, ← hopener, wrapperOpener_eq, List.cons_append] at hc
      obtain rfl : '<' = c := (List.cons_eq_cons.mp hc).1
      exact absurd hletter (by decide)
    · obtain ⟨topic, hinner, hhint⟩ | ⟨u, -, hcloser⟩ := List.append_eq_append_iff.mp hrest.symm
      · exact ⟨rest, topic, hfront, hhint, hinner⟩
      · -- a hint has a space, and the closer has none
        obtain ⟨label, sp, c, more, hline, -, hsp, hspaces, -⟩ := (isExpandHint_iff.mp h.isHint).parts
        obtain ⟨d, sp, rfl⟩ := List.exists_cons_of_ne_nil hsp
        have hmem : d ∈ wrapperCloser := by
          rw [hcloser]
          refine List.mem_append_right _ ((infix_strip hint).subset ?_)
          rw [hline]
          simp
        have hplain : ∀ c ∈ wrapperCloser, isSpace c = false := forall_mem_of_all (by rw [wrapperCloser_eq]; decide)
        have hspace := hspaces d List.mem_cons_self
        rw [hplain d hmem] at hspace
        cases hspace
  · rintro ⟨rest, topic, rfl, rfl, rfl⟩
    simp

theorem unwrapped_eq (h : IsStrictBody nonce front hint) (hcloser : ¬ summaryCloser <:+ hint) :
    (LeavesTag front hint → (unwrapped (front ++ hint)).2 = ["summary_wrapper"]) ∧
      (¬ LeavesTag front hint → unwrapped (front ++ hint) = (front ++ hint, [])) := by
  rw [unwrapped]
  constructor
  · rintro (hleft | ⟨rest, topic, hfront, hhint, hopen, hclose⟩)
    · exact absurd hleft hcloser
    · rw [h.wrapped_iff.mpr ⟨rest, topic, hfront, hhint, rfl⟩]
      simp [contains, hopen, hclose]
  · intro hnot
    cases hwrapped : wrappedText (front ++ hint) with
    | none => rfl
    | some inner =>
      obtain ⟨rest, topic, hfront, hhint, rfl⟩ := h.wrapped_iff.mp hwrapped
      simp only
      refine if_pos ?_
      by_contra hnone
      rw [not_or, contains, contains, decide_eq_true_eq, decide_eq_true_eq] at hnone
      exact hnot (.inr ⟨rest, topic, hfront, hhint, hnone.1, hnone.2⟩)

end IsStrictBody

/-! ## The normal form -/

section

variable {isWord : Char → Bool} {encoder : Option Encoder} {maxTokens : Int} {nonce front hint : Text}

theorem checkBody_strict (h : IsStrictBody nonce front hint)
    (hlong : minimumBodyTokens maxTokens ≤ countTokensWith encoder (front ++ hint))
    {e : Envelope} (hclosed : e.unclosed = false) (notes : List String) :
    checkBody isWord encoder e (front ++ hint) notes maxTokens = (front ++ hint, "", notes) := by
  have hcontrols := withoutControls_hint h.complete h.noBreak h.hint_ne_nil h.isHint
  obtain ⟨hlast, htake⟩ := lastLine_append h.complete h.noBreak h.hint_ne_nil
  have hclosing : closingHint (front ++ hint) = some (front ++ hint, []) := by
    rw [closingHint, hlast, htake, plainLine_hint h.isHint]
    rfl
  have hnotshort : decide ((countTokensWith encoder (front ++ hint) : Int) < minimumBodyTokens maxTokens) = false :=
    decide_eq_false (not_lt.mpr hlong)
  rw [checkBody]
  simp only [hclosed, hcontrols, hclosing, hnotshort]
  simp

/-- The strict reply of a body is accepted as it is where no tag comes to an edge. -/
theorem strictReply_iff (hhex : IsHex nonce) (h : IsStrictBody nonce front hint)
    (hlong : minimumBodyTokens maxTokens ≤ countTokensWith encoder (front ++ hint)) :
    checkSummaryContract isWord encoder (strictReply nonce (front ++ hint)) nonce maxTokens =
    (front ++ hint, "", []) ↔ ¬ LeavesTag front hint := by
  constructor
  · intro haccepted hleaves
    obtain ⟨-, -, hbody⟩ := checkSummaryContract_accepts hhex.1 haccepted
    obtain ⟨-, -, hint', -, -, hnotes⟩ := checkBody_accepts hbody
    simp only [Envelope.notes] at hnotes
    by_cases hcloser : summaryCloser <:+ hint
    · rw [h.tolerated_strictReply hcloser] at hnotes
      cases hnotes
    · rw [h.envelope_strictReply hcloser, h.body_strictReply, (h.unwrapped_eq hcloser).1 hleaves] at hnotes
      simp at hnotes
  · intro hnot
    have hcloser : ¬ summaryCloser <:+ hint := fun hsuffix => hnot (.inl hsuffix)
    have hclosed := IsStrictBody.unclosed_strictReply nonce (front ++ hint)
    rw [checkSummaryContract, if_neg hhex.1]
    simp only [h.envelope_strictReply hcloser]
    rw [if_neg (not_not_intro
      (show openingTag nonce <+: strictReply nonce (front ++ hint) from List.prefix_append _ _)),
      if_neg (by rw [hclosed]; simp), if_neg (not_not_intro (h.count_strictReply hhex)), h.body_strictReply,
      (h.unwrapped_eq hcloser).2 hnot, checkBody_strict h hlong hclosed, Envelope.notes, hclosed]
    rfl

theorem strictReply_accepted (hhex : IsHex nonce) (h : IsStrictBody nonce front hint) {b : Text}
    (hb : b = front ++ hint)
    (hlong : minimumBodyTokens maxTokens ≤ countTokensWith encoder b) :
    ¬ openingTag nonce <:+: b ∧ isExpandHint (strip (lastLine b)) = true ∧
      (checkSummaryContract isWord encoder (strictReply nonce b) nonce maxTokens = (b, "", []) ↔
      ¬ LeavesTag front hint) := by
  subst hb
  refine ⟨h.noTag, ?_, strictReply_iff hhex h hlong⟩
  rw [(lastLine_append h.complete h.noBreak h.hint_ne_nil).1]
  exact h.isHint

/-- An accepted body has no opening tag and ends in a hint, and its strict reply is accepted as it
is exactly where the hint that was sent brings no tag of its own to an edge of the body. -/
theorem accepted_in_strict_form {content b : Text} {tolerated : List String} (hhex : IsHex nonce)
    (h : checkSummaryContract isWord encoder content nonce maxTokens = (b, "", tolerated)) :
    ¬ openingTag nonce <:+: b ∧ isExpandHint (strip (lastLine b)) = true ∧
      (checkSummaryContract isWord encoder (strictReply nonce b) nonce maxTokens = (b, "", []) ↔
        ¬ LeavesTag (sentFront content nonce) (sentHint content nonce)) := by
  obtain ⟨-, -, hbody⟩ := checkSummaryContract_accepts hhex.1 h
  have hlong := (checkBody_accepts hbody).2.1
  have hparts := accepted_body hhex h
  exact strictReply_accepted hhex hparts.2 hparts.1 hlong

/-- The double quote. -/
def quote : Char := Char.ofNat 0x22

def quotedBody (topic : Text) : Text := "notes\n".toList ++ (hintStart ++ topic)

/-- A reply whose hint stands in quotes. -/
def quotedReply (topic : Text) : Text :=
  openingTag "ab12".toList ++
    '\n' :: ("notes\n".toList ++ quote :: (hintStart ++ (topic ++ quote :: '\n' :: summaryCloser)))

theorem isHex_ab12 : IsHex "ab12".toList := by
  rw [toList_eq rfl]
  exact ⟨List.cons_ne_nil _ _, forall_mem_of_all (by rw [toList_eq rfl]; decide)⟩

/-- How the two replies are read, and the end of the strict form of the second one. -/
theorem quoted_read :
    checkSummaryContract Char.isAlphanum none (quotedReply ['x']) "ab12".toList 64 =
    (quotedBody ['x'], "", ["hint_decoration"]) ∧
    checkSummaryContract Char.isAlphanum none (quotedReply ('x' :: summaryCloser)) "ab12".toList 64 =
      (quotedBody ('x' :: summaryCloser), "", ["hint_decoration"]) ∧
    (envelope (strictReply "ab12".toList (quotedBody ('x' :: summaryCloser)))).tolerated =
    ["repeated_closer"] := by decide +kernel

/-- The quoted hint of a plain topic is accepted in its strict form. -/
theorem quoted_topic_in_strict_form :
    ¬ openingTag "ab12".toList <:+: quotedBody ['x'] ∧ isExpandHint (strip (lastLine (quotedBody ['x']))) = true ∧
      (checkSummaryContract Char.isAlphanum none (strictReply "ab12".toList (quotedBody ['x']))
      "ab12".toList 64 = (quotedBody ['x'], "", []) ↔
        ¬ LeavesTag (sentFront (quotedReply ['x']) "ab12".toList) (sentHint (quotedReply ['x']) "ab12".toList)) :=
  accepted_in_strict_form isHex_ab12 quoted_read.1

/-- A quoted hint that ends in a closing tag is accepted, and its strict form is not accepted as it is. -/
theorem quoted_closer_not_in_strict_form :
    checkSummaryContract Char.isAlphanum none (quotedReply ('x' :: summaryCloser)) "ab12".toList 64 =
      (quotedBody ('x' :: summaryCloser), "", ["hint_decoration"]) ∧
    checkSummaryContract Char.isAlphanum
      none (strictReply "ab12".toList (quotedBody ('x' :: summaryCloser))) "ab12".toList 64 ≠
      (quotedBody ('x' :: summaryCloser), "", []) := by
  obtain ⟨-, haccepted, htolerated⟩ := quoted_read
  refine ⟨haccepted, fun hstrict => ?_⟩
  obtain ⟨-, -, hbody⟩ := checkSummaryContract_accepts isHex_ab12.1 hstrict
  obtain ⟨-, -, hint, -, -, hnotes⟩ := checkBody_accepts hbody
  rw [Envelope.notes, htolerated] at hnotes
  cases hnotes

end

end Escalation
