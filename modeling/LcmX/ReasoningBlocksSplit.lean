import LcmX.Lib.Lines
import LcmX.ReasoningBlocksSub

/-!
# Blocks that a removal closes

What stands on the two sides of a block that was taken out is joined, and the ends may be
the halves of a tag. Only such a tag makes a closed block in what is left.
-/
namespace Escalation

open Regex PyText

/-! ## Pieces -/

/-- The pieces start and end with characters. -/
structure IsTight (pieces : List (Char ⊕ List Char)) : Prop where
  first : ∀ piece ∈ pieces.head?, piece.isLeft = true
  last : ∀ piece ∈ pieces.getLast?, piece.isLeft = true

def HasBlock (pieces : List (Char ⊕ List Char)) : Prop := ∃ block, .inr block ∈ pieces

/-- An opening tag and behind it a closing tag of its spelling, read over the characters between the
blocks of a text, where a block stands inside one of the two. -/
def HasSplitPair (text : List Char) : Prop :=
  ∃ tag front w between c back, cutBlocks text = front ++ (w ++ (between ++ (c ++ back))) ∧ IsTight w ∧ IsTight c ∧
    IsOpening tag (keptChars w) ∧ IsClosing tag (keptChars c) ∧ (HasBlock w ∨ HasBlock c)

theorem keptChars_append (a b : List (Char ⊕ List Char)) :
    keptChars (a ++ b) = keptChars a ++ keptChars b := List.filterMap_append

theorem keptChars_nil : keptChars [] = [] := rfl

theorem keptChars_inl (c : Char) (pieces : List (Char ⊕ List Char)) :
    keptChars (.inl c :: pieces) = c :: keptChars pieces := rfl

theorem keptChars_inr (block : List Char) (pieces : List (Char ⊕ List Char)) :
    keptChars (.inr block :: pieces) = keptChars pieces := rfl

variable {pieces : List (Char ⊕ List Char)} {text : List Char}

/-- Pieces without a block are their characters. -/
theorem eq_map_inl (h : ¬ HasBlock pieces) : pieces = (keptChars pieces).map .inl := by
  induction pieces with
  | nil => rfl
  | cons piece pieces ih =>
    cases piece with
    | inl c => rw [keptChars_inl, List.map_cons, ← ih fun ⟨block, hmem⟩ => h ⟨block, List.mem_cons_of_mem _ hmem⟩]
    | inr block => exact absurd ⟨block, List.mem_cons_self⟩ h

theorem trim_front (h : keptChars pieces ≠ []) :
    ∃ a b, pieces = a ++ b ∧ keptChars a = [] ∧ b ≠ [] ∧ ∀ piece ∈ b.head?, piece.isLeft = true := by
  induction pieces with
  | nil => exact absurd rfl h
  | cons piece pieces ih =>
    cases piece with
    | inl c =>
      refine ⟨[], .inl c :: pieces, rfl, rfl, List.cons_ne_nil _ _, fun piece hpiece => ?_⟩
      rw [← Option.some.inj hpiece]
      rfl
    | inr block =>
      obtain ⟨a, b, rfl, ha, hb, hfirst⟩ := ih h
      exact ⟨.inr block :: a, b, rfl, ha, hb, hfirst⟩

theorem trim_back (h : keptChars pieces ≠ []) :
    ∃ b z, pieces = b ++ z ∧ keptChars z = [] ∧ b ≠ [] ∧ ∀ piece ∈ b.getLast?, piece.isLeft = true := by
  induction pieces using List.reverseRecOn with
  | nil => exact absurd rfl h
  | append_singleton pieces piece ih =>
    cases piece with
    | inl c =>
      refine ⟨pieces ++ [.inl c], [], by simp, rfl, by simp, fun piece hpiece => ?_⟩
      rw [List.getLast?_append_of_ne_nil _ (List.cons_ne_nil _ _)] at hpiece
      rw [← Option.some.inj hpiece]
      rfl
    | inr block =>
      rw [keptChars_append, keptChars_inr, keptChars_nil, List.append_nil] at h
      obtain ⟨b, z, rfl, hz, hb, hlast⟩ := ih h
      exact ⟨b, z ++ [.inr block], by simp, by rw [keptChars_append, hz]; rfl, hb, hlast⟩

/-- A text that is read over pieces is read over pieces that start and end with characters. -/
theorem read_pieces {w back : List Char} (hw : w ≠ []) (h : keptChars pieces = w ++ back) :
    ∃ a b c, pieces = a ++ (b ++ c) ∧ keptChars a = [] ∧ keptChars b = w ∧ keptChars c = back ∧ IsTight b := by
  obtain ⟨m, c, rfl, hm, hc⟩ := List.filterMap_eq_append_iff.mp h
  have hm : keptChars m = w := hm
  obtain ⟨m', z, rfl, hz, hne, hlast⟩ := trim_back (show keptChars m ≠ [] by rw [hm]; exact hw)
  rw [keptChars_append, hz, List.append_nil] at hm
  obtain ⟨a, b, rfl, ha, hne', hfirst⟩ := trim_front (show keptChars m' ≠ [] by rw [hm]; exact hw)
  rw [keptChars_append, ha, List.nil_append] at hm
  refine ⟨a, b, z ++ c, by simp, ha, hm, by rw [keptChars_append, hz]; exact hc, hfirst, ?_⟩
  rwa [List.getLast?_append_of_ne_nil _ hne'] at hlast

/-! ## What is left -/

/-- The text of pieces. -/
def piecesText (pieces : List (Char ⊕ List Char)) : List Char := pieces.flatMap (pieceText id)

theorem blockPieces_text (fuel : Nat) : ∀ {behind ahead : List Char}, ahead.length ≤ fuel →
    piecesText (blockPieces fuel behind ahead) = ahead := by
  induction fuel with
  | zero =>
    intro behind ahead h
    rw [List.length_eq_zero_iff.mp (Nat.le_zero.mp h)]
    rfl
  | succ fuel ih =>
    intro behind ahead h
    rw [blockPieces_succ]
    cases hmatch : matchBlock behind ahead with
    | some t =>
      obtain ⟨w, hne, hreach⟩ := matchBlock_some hmatch
      have hlen := congrArg List.length hreach.2
      have hpos := List.length_pos_iff.mpr hne
      simp only [List.length_append] at hlen
      have htake : ahead.take (t.pos - behind.length) = w := hreach.found_text
      rw [piecesText, List.flatMap_cons, ← piecesText, ih (by omega), htake]
      exact hreach.2.symm
    | none =>
      cases ahead with
      | nil => rfl
      | cons c rest =>
        rw [piecesText, List.flatMap_cons, ← piecesText, ih (by simpa using h)]
        rfl

/-- No block starts at a character that is kept. -/
theorem no_block_at_inl (fuel : Nat) :
    ∀ {behind ahead : List Char} {front : List (Char ⊕ List Char)} {c : Char} {back : List (Char ⊕ List Char)},
    ahead.length ≤ fuel → blockPieces fuel behind ahead = front ++ .inl c :: back →
      ¬ StartsBlock (c :: piecesText back) := by
  induction fuel with
  | zero =>
    intro behind ahead front c back _ h
    exact absurd h.symm (by simp [blockPieces])
  | succ fuel ih =>
    intro behind ahead front c back hfuel h
    rw [blockPieces_succ] at h
    cases hmatch : matchBlock behind ahead with
    | some t =>
      rw [hmatch] at h
      obtain ⟨w, hne, hreach⟩ := matchBlock_some hmatch
      have hlen := congrArg List.length hreach.2
      have hpos := List.length_pos_iff.mpr hne
      simp only [List.length_append] at hlen
      cases front with
      | nil => cases h
      | cons piece front => exact ih (by omega) (List.cons_eq_cons.mp h).2
    | none =>
      rw [hmatch] at h
      cases ahead with
      | nil => exact absurd h.symm (by simp)
      | cons d rest =>
        have hrest : rest.length ≤ fuel := by simpa using hfuel
        cases front with
        | nil =>
          obtain ⟨hd, rfl⟩ := List.cons_eq_cons.mp h
          rw [← Sum.inl.inj hd, blockPieces_text fuel hrest]
          exact matchBlock_eq_none.mp hmatch
        | cons piece front => exact ih hrest (List.cons_eq_cons.mp h).2

theorem piecesText_append (a b : List (Char ⊕ List Char)) :
    piecesText (a ++ b) = piecesText a ++ piecesText b := List.flatMap_append

theorem piecesText_map_inl (w : List Char) : piecesText (w.map .inl) = w := by
  rw [piecesText, List.flatMap_map]
  exact List.flatMap_singleton' w

/-- A closed block in what is left was made by a block inside one of its tags. -/
theorem closed_iff_split (text : List Char) : HasClosedBlock (stripReasoningBlocks text) ↔ HasSplitPair text := by
  rw [stripReasoningBlocks_eq, subBlocks]
  constructor
  · rintro ⟨front, _, hkept, tag, w, x, c, rest, hopening, hclosing, rfl⟩
    obtain ⟨a, m, hcut, ha, hm⟩ := List.filterMap_eq_append_iff.mp hkept
    obtain ⟨a', b, m', rfl, -, hb, hm', hbtight⟩ := read_pieces hopening.ne_nil hm
    obtain ⟨y, m'', rfl, -, hm''⟩ := List.filterMap_eq_append_iff.mp hm'
    have hcne : c ≠ [] := by
      obtain ⟨name, sp, -, -, rfl⟩ := hclosing
      exact List.cons_ne_nil _ _
    obtain ⟨z, d, back, rfl, -, hd, -, hdtight⟩ := read_pieces hcne hm''
    refine ⟨tag, a ++ a', b, y ++ z, d, back, by simpa using hcut, hbtight, hdtight, hb ▸ hopening, hd ▸ hclosing, ?_⟩
    by_contra hnone
    rw [not_or] at hnone
    -- both tags stand in the text as they are, and a block starts at the first of them
    obtain ⟨-, sp, -, hw⟩ := id hopening
    have hbchars := eq_map_inl hnone.1
    have hdchars := eq_map_inl hnone.2
    rw [hb, hw, List.map_cons] at hbchars
    rw [hd] at hdchars
    refine no_block_at_inl text.length (Nat.le_refl _) (show blockPieces text.length [] text =
      a ++ a' ++ .inl '<' :: ((tag ++ (sp ++ ['>'])).map .inl ++ (y ++ (z ++ (d ++ back)))) from ?_) ?_
    · exact hcut.trans (by rw [hbchars]; simp)
    · refine ⟨tag, w, piecesText (y ++ z), c, piecesText back, hopening, hclosing, ?_⟩
      rw [hdchars, hw]
      simp only [piecesText_append, piecesText_map_inl, List.append_assoc, List.cons_append, List.nil_append]
  · rintro ⟨tag, front, w, between, c, back, hcut, -, -, hopening, hclosing, -⟩
    refine ⟨keptChars front, keptChars w ++ (keptChars between ++ (keptChars c ++ keptChars back)), ?_,
      tag, _, _, _, _, hopening, hclosing, rfl⟩
    rw [hcut]
    simp only [keptChars_append]

/-! ## Removing again -/

theorem HasClosedBlock.of_infix {part : List Char} (h : HasClosedBlock part)
    (hpart : part <:+: text) : HasClosedBlock text := by
  obtain ⟨a, b, rfl⟩ := hpart
  obtain ⟨front, back, rfl, tag, w, x, c, rest, hopening, hclosing, rfl⟩ := h
  exact ⟨a ++ front, w ++ (x ++ (c ++ (rest ++ b))), by simp, tag, w, x, c, rest ++ b, hopening, hclosing, rfl⟩

theorem Removal.length_le {out : List Char} (h : Removal text out) : out.length ≤ text.length := by
  induction h with
  | done => exact Nat.le_refl _
  | keep _ _ ih => simpa using ih
  | remove _ _ _ _ ih =>
    simp only [List.length_append]
    omega

/-- A removal changes the texts that have a closed block. -/
theorem removal_self {out : List Char} (h : Removal text out) : out = text ↔ ¬ HasClosedBlock text := by
  induction h with
  | done =>
    refine iff_of_true rfl ?_
    rintro ⟨front, back, hnil, tag, w, x, c, rest, hopening, -, rfl⟩
    exact hopening.ne_nil (List.append_eq_nil_iff.mp (List.append_eq_nil_iff.mp hnil.symm).2).1
  | @keep c rest out hnone hrest ih =>
    rw [List.cons_inj_right, ih, not_iff_not]
    constructor
    · exact fun hclosed => hclosed.of_infix ⟨[c], [], by simp⟩
    · rintro ⟨front, back, htext, hstarts⟩
      cases front with
      | nil =>
        rw [List.nil_append] at htext
        exact absurd (htext ▸ hstarts) hnone
      | cons d front => exact ⟨front, back, (List.cons_eq_cons.mp htext).2, hstarts⟩
  | @remove tag w x c rest out hopening hclosing hnearest hrest ih =>
    refine iff_of_false (fun hout => ?_) (not_not_intro ⟨[], _, rfl, tag, w, x, c, rest, hopening, hclosing, rfl⟩)
    have hless := hrest.length_le
    have hlen := congrArg List.length hout
    have hpos := List.length_pos_iff.mpr hopening.ne_nil
    simp only [List.length_append] at hlen
    omega

theorem strip_self (text : List Char) : stripReasoningBlocks text = text ↔ ¬ HasClosedBlock text := by
  have hremoval : Removal text (stripReasoningBlocks text) := removal_iff.mpr (stripReasoningBlocks_eq text)
  exact removal_self hremoval

theorem infix_sanitize (text : List Char) : sanitizeReasoningSummary text <:+: stripReasoningBlocks text := by
  rw [sanitizeReasoningSummary]
  split
  · exact List.nil_infix
  · exact infix_strip _

/-- No closed block survives, and a second removal does nothing, where no block stands inside a tag. -/
theorem none_survives_iff (text : List Char) :
    (¬ HasClosedBlock (stripReasoningBlocks text) ∧ ¬ HasClosedBlock (sanitizeReasoningSummary text) ↔
      ¬ HasSplitPair text) ∧
      (stripReasoningBlocks (stripReasoningBlocks text) = stripReasoningBlocks text ↔ ¬ HasSplitPair text) := by
  have hsanitized : ¬ HasSplitPair text → ¬ HasClosedBlock (sanitizeReasoningSummary text) :=
    fun hsplit hclosed => hsplit ((closed_iff_split text).mp (hclosed.of_infix (infix_sanitize text)))
  rw [strip_self, closed_iff_split, and_iff_left_of_imp hsanitized]
  exact ⟨Iff.rfl, Iff.rfl⟩

def tagAroundBlock : List Char := "x<thi<think>a</think>nk>b</think>".toList

/-- Removing the inner block leaves a closed block behind. -/
theorem tag_around_block_survives :
    HasClosedBlock (stripReasoningBlocks tagAroundBlock) ∧ HasClosedBlock (sanitizeReasoningSummary tagAroundBlock) ∧
      stripReasoningBlocks (stripReasoningBlocks tagAroundBlock) ≠ stripReasoningBlocks tagAroundBlock := by
  have hleft : HasClosedBlock "x<think>b</think>".toList := by
    refine ⟨['x'], "<think>b</think>".toList, rfl, "think".toList, "<think>".toList, ['b'],
      "</think>".toList, [], ?_, ?_, rfl⟩
    · exact ⟨⟨"think".toList, by decide, by decide⟩, [], by simp, rfl⟩
    · exact ⟨"think".toList, [], rfl, by simp, rfl⟩
  have hstrip : stripReasoningBlocks tagAroundBlock = "x<think>b</think>".toList := by decide +kernel
  have hsanitize : sanitizeReasoningSummary tagAroundBlock = "x<think>b</think>".toList := by decide +kernel
  rw [hstrip, hsanitize]
  exact ⟨hleft, hleft, by decide +kernel⟩

end Escalation
