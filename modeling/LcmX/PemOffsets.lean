import LcmX.PemScan
import LcmX.Lib.RegexLower
import LcmX.Lib.Lines

/-!
# Where the lines of the model stand

The segments of a text stand in it one after the other, and so do the entries of their
lines: every entry ends before the next one starts, and what it says of a marker is
inside its own segment.
-/
namespace Pem

open Regex PyText

/-! ## A piece of a text -/

/-- The piece is what the text holds from the offset on. -/
def Stands (text : List Char) (offset : Nat) (piece : List Char) : Prop :=
  ∃ front back, text = front ++ (piece ++ back) ∧ front.length = offset

namespace Stands

variable {text piece inner : List Char} {offset k : Nat}

theorem le (h : Stands text offset piece) : offset + piece.length ≤ text.length := by
  obtain ⟨front, back, rfl, rfl⟩ := h
  simp only [List.length_append]
  omega

theorem refl (text : List Char) : Stands text 0 text := ⟨[], [], by simp, rfl⟩

theorem trans (h : Stands text offset piece) (hinner : Stands piece k inner) : Stands text (offset + k) inner := by
  obtain ⟨front, back, rfl, rfl⟩ := h
  obtain ⟨front', back', rfl, rfl⟩ := hinner
  exact ⟨front ++ front', back' ++ back, by simp, by simp⟩

theorem of_eq (front : List Char) {back : List Char} (h : text = front ++ (piece ++ back)) :
    Stands text front.length piece :=
  ⟨front, back, h, rfl⟩

/-- Offsets inside the piece can be counted from its start. -/
theorem slice_eq (h : Stands text offset piece) (start : Nat) {stop : Nat} (hstop : stop ≤ piece.length) :
    slice text (offset + start) (offset + stop) = slice piece start stop := by
  obtain ⟨front, back, rfl, rfl⟩ := h
  have hwidth : front.length + stop - (front.length + start) = stop - start := by omega
  rw [slice, slice, hwidth, ← List.drop_drop, List.drop_left]
  by_cases hstart : start ≤ piece.length
  · rw [List.drop_append_of_le_length hstart, List.take_append_of_le_length (by rw [List.length_drop]; omega)]
  · have hzero : stop - start = 0 := by omega
    rw [hzero, List.take_zero, List.take_zero]

end Stands

/-- Pieces that stand in the text one after the other, between two offsets. -/
def Cut (text : List Char) : Nat → List (Nat × List Char) → Nat → Prop
  | low, [], high => low ≤ high
  | low, (offset, piece) :: rest, high =>
    low ≤ offset ∧ Stands text offset piece ∧ Cut text (offset + piece.length) rest high

theorem Cut.append {text : List Char} {xs ys : List (Nat × List Char)} {low middle high : Nat}
    (h : Cut text low xs middle)
    (h' : Cut text middle ys high) : Cut text low (xs ++ ys) high := by
  induction xs generalizing low with
  | nil =>
    cases ys with
    | nil => exact Nat.le_trans h h'
    | cons y ys => exact ⟨Nat.le_trans h h'.1, h'.2⟩
  | cons x xs ih => exact ⟨h.1, h.2.1, ih h.2.2⟩

theorem Cut.mono {text : List Char} {xs : List (Nat × List Char)} {low low' high high' : Nat} (h : Cut text low xs high)
    (hlow : low' ≤ low) (hhigh : high ≤ high') : Cut text low' xs high' := by
  induction xs generalizing low low' with
  | nil => exact Nat.le_trans hlow (Nat.le_trans h hhigh)
  | cons x xs ih => exact ⟨Nat.le_trans hlow h.1, h.2.1, ih h.2.2 (Nat.le_refl _)⟩

/-! ## The segments -/

theorem slashes_append_pastSlashes (text : List Char) : slashes text ++ pastSlashes text = text :=
  List.takeWhile_append_dropWhile

/-- A separator is no longer than what is left of the line. -/
theorem separatorLength_le {text : List Char} {length : Nat}
    (h : separatorLength text = some length) : length ≤ text.length := by
  rw [separatorLength.eq_def] at h
  split at h
  · cases h
    simp
  · cases h
    simp
  · next rest =>
    split at h
    · next hfeed =>
      cases h
      have hsplit := congrArg List.length (slashes_append_pastSlashes rest)
      rw [List.length_append] at hsplit
      have hrest : pastSlashes rest ≠ [] := by
        intro hnil
        rw [hnil] at hfeed
        simp at hfeed
      have := List.length_pos_iff.mpr hrest
      rw [List.length_cons]
      omega
    · cases h
      simp
  · next rest =>
    split at h
    · next hmem =>
      cases h
      have hfour : (rest.take 4).length = 4 := by
        rw [← String.length_ofList]
        simp only [List.mem_cons, List.not_mem_nil, or_false] at hmem
        obtain h | h | h | h | h | h | h | h := hmem <;> rw [h] <;> decide
      rw [List.length_take] at hfour
      rw [List.length_cons]
      omega
    · cases h
  · cases h

/-- The pieces of a serialized line stand in it in order. -/
theorem serializedPieces_cut (fuel : Nat) : ∀ (front piece : List Char) {text rest : List Char} {start i : Nat},
    text = front ++ (piece ++ rest) → front.length = start → i = start + piece.length →
      Cut text start (serializedPieces fuel start i piece rest) text.length := by
  induction fuel with
  | zero =>
    intro front piece text rest start i htext hstart hi
    have hat : Stands text start piece := ⟨front, rest, htext, hstart⟩
    exact ⟨Nat.le_refl _, hat, hat.le⟩
  | succ fuel ih =>
    intro front piece text rest start i htext hstart hi
    have hat : Stands text start piece := ⟨front, rest, htext, hstart⟩
    cases rest with
    | nil => exact ⟨Nat.le_refl _, hat, hat.le⟩
    | cons c rest =>
      rw [serializedPieces]
      split
      · -- a quote ends the piece
        refine ⟨Nat.le_refl _, hat, ?_⟩
        refine (ih (front ++ (piece ++ [c])) [] (by simp [htext]) (by simp; omega) (by simp)).mono ?_ (Nat.le_refl _)
        omega
      · split
        · exact ih front (piece ++ [c]) (by simp [htext]) hstart (by simp; omega)
        · have hsplit := slashes_append_pastSlashes (c :: rest)
          simp only
          split
          · next length hlength =>
            -- a separator ends the piece
            have hle := separatorLength_le hlength
            refine ⟨Nat.le_refl _, hat, ?_⟩
            refine (ih (front ++ (piece ++ (slashes (c :: rest) ++ (pastSlashes (c :: rest)).take length)))
              [] ?_ ?_ (by simp)).mono ?_ (Nat.le_refl _)
            · rw [htext, ← hsplit]
              simp [hsplit]
            · simp only [List.length_append, List.length_take]
              omega
            · omega
          · refine ih front (piece ++ slashes (c :: rest)) ?_ hstart (by simp; omega)
            rw [htext, List.append_assoc, hsplit]

theorem splitSerializedPemLine_cut (content : List Char) :
    Cut content 0 (splitSerializedPemLine content) content.length :=
  serializedPieces_cut _ [] [] rfl rfl rfl

theorem skipTabs_suffix (fuel : Nat) : ∀ text : List Char, skipTabs fuel text <:+ text := by
  induction fuel with
  | zero => exact fun _ => List.suffix_rfl
  | succ fuel ih =>
    intro text
    cases text with
    | nil => exact List.suffix_rfl
    | cons c rest =>
      rw [skipTabs]
      split
      · exact (ih rest).trans (List.suffix_cons c rest)
      · split
        · exact (ih _).trans ((List.tail_suffix _).trans ((List.dropWhile_suffix _).trans (List.suffix_cons c rest)))
        · exact List.suffix_rfl

theorem trimTabsBack_suffix (fuel : Nat) : ∀ text : List Char, trimTabsBack fuel text <:+ text := by
  induction fuel with
  | zero => exact fun _ => List.suffix_rfl
  | succ fuel ih =>
    intro text
    cases text with
    | nil => exact List.suffix_rfl
    | cons c rest =>
      rw [trimTabsBack]
      split
      · exact (ih rest).trans (List.suffix_cons c rest)
      · split
        · exact (ih _).trans ((List.dropWhile_suffix _).trans (List.suffix_cons c rest))
        · exact List.suffix_rfl

theorem trimPemSegment_stands (piece : List Char) : Stands piece (trimPemSegment piece).1 (trimPemSegment piece).2 := by
  obtain ⟨front, hfront⟩ := skipTabs_suffix piece.length piece
  obtain ⟨back, hback⟩ := trimTabsBack_suffix (skipTabs piece.length piece).length (skipTabs piece.length piece).reverse
  refine ⟨front, back.reverse, ?_, ?_⟩
  · have hrest := congrArg List.reverse hback
    rw [List.reverse_append, List.reverse_reverse] at hrest
    rw [trimPemSegment, hrest, hfront]
  · have hlength := congrArg List.length hfront
    rw [List.length_append] at hlength
    simp only [trimPemSegment]
    omega

/-- Pieces of a piece, each cut down, stand in the text. -/
theorem Cut.trimmed {text content : List Char} {offset : Nat} (h : Stands text offset content)
    {pieces : List (Nat × List Char)} :
    ∀ {low high : Nat}, Cut content low pieces high → Cut text (offset + low)
      (pieces.map fun piece => (offset + piece.1 + (trimPemSegment piece.2).1, (trimPemSegment piece.2).2))
      (offset + high) := by
  induction pieces with
  | nil => exact fun hcut => Nat.add_le_add_left hcut offset
  | cons p pieces ih =>
    intro low high hcut
    have htrim := trimPemSegment_stands p.2
    refine ⟨by have := hcut.1; omega, (h.trans hcut.2.1).trans htrim, (ih hcut.2.2).mono ?_ (Nat.le_refl _)⟩
    have := htrim.le
    omega

theorem lineSegments_cut {text raw : List Char} {offset : Nat} (h : Stands text offset raw) :
    Cut text offset (lineSegments offset raw) (offset + raw.length) := by
  obtain ⟨tail, htail⟩ := prefix_dropLineBreak raw
  have hcontent : Stands text offset (dropLineBreak raw) := h.trans (k := 0) ⟨[], tail, htail.symm, rfl⟩
  have hlength : (dropLineBreak raw).length ≤ raw.length := (prefix_dropLineBreak raw).length_le
  simp only [lineSegments]
  split
  · exact ((splitSerializedPemLine_cut (dropLineBreak raw)).trimmed hcontent).mono (Nat.le_refl _)
      (Nat.add_le_add_left hlength offset)
  · exact ⟨Nat.le_refl _, hcontent, Nat.add_le_add_left hlength offset⟩

/-- The segments of the lines. -/
def textSegments : Nat → List (List Char) → List (Nat × List Char)
  | _, [] => []
  | offset, raw :: lines => lineSegments offset raw ++ textSegments (offset + raw.length) lines

theorem modelLines_eq (lines : List (List Char)) : ∀ offset,
    modelLines offset lines = (textSegments offset lines).flatMap fun segment => classifySegment
      segment.1 segment.2 := by
  induction lines with
  | nil => exact fun _ => rfl
  | cons raw lines ih =>
    intro offset
    rw [modelLines, textSegments, List.flatMap_append, ih]

theorem textSegments_cut {text : List Char} (lines : List (List Char)) :
    ∀ {offset : Nat}, Stands text offset lines.flatten →
    Cut text offset (textSegments offset lines) (offset + lines.flatten.length) := by
  induction lines with
  | nil => exact fun _ => Nat.le_refl _
  | cons raw lines ih =>
    intro offset h
    have hraw : Stands text offset raw := h.trans (k := 0) ⟨[], lines.flatten, rfl, rfl⟩
    have hlines : Stands text (offset + raw.length) lines.flatten := h.trans ⟨raw, [], by simp, rfl⟩
    have hlength : offset + (raw :: lines).flatten.length = offset + raw.length + lines.flatten.length := by
      rw [List.flatten_cons, List.length_append]
      omega
    rw [hlength]
    exact (lineSegments_cut hraw).append (ih hlines)

theorem segments_cut (text : List Char) : Cut text 0 (textSegments 0 (splitlinesKeep text)) text.length := by
  have h := @textSegments_cut text (splitlinesKeep text) 0 (by rw [splitlinesKeep_flatten]; exact Stands.refl text)
  rwa [splitlinesKeep_flatten, Nat.zero_add] at h

/-! ## The entries of a segment -/

/-- What an entry says of its markers is inside its line. -/
structure PemLine.Marked (line : PemLine) : Prop where
  ended : isEndLine line.kind = true → ∃ m, line.markerEnd = some m ∧ line.redactStart ≤ m ∧ m ≤ line.contentEnd
  begun : line.kind = .beginMarker → ∀ m, line.markerEnd = some m → line.lineStart ≤ m ∧ m ≤ line.redactStart

/-- Entries one after the other, between two offsets. -/
def Laid : Nat → List PemLine → Nat → Prop
  | low, [], high => low ≤ high
  | low, line :: rest, high =>
    low ≤ line.lineStart ∧ line.lineStart ≤ line.redactStart ∧ line.redactStart ≤ line.contentEnd ∧
    line.Marked ∧ Laid line.contentEnd rest high

theorem Laid.append {xs ys : List PemLine} {low middle high : Nat} (h : Laid low xs middle) (h' : Laid middle ys high) :
    Laid low (xs ++ ys) high := by
  induction xs generalizing low with
  | nil =>
    cases ys with
    | nil => exact Nat.le_trans h h'
    | cons y ys => exact ⟨Nat.le_trans h h'.1, h'.2⟩
  | cons x xs ih => exact ⟨h.1, h.2.1, h.2.2.1, h.2.2.2.1, ih h.2.2.2.2⟩

theorem Laid.mono {xs : List PemLine} {low low' high high' : Nat} (h : Laid low xs high)
    (hlow : low' ≤ low) (hhigh : high ≤ high') :
    Laid low' xs high' := by
  induction xs generalizing low low' with
  | nil => exact Nat.le_trans hlow (Nat.le_trans h hhigh)
  | cons x xs ih => exact ⟨Nat.le_trans hlow h.1, h.2.1, h.2.2.1, h.2.2.2.1, ih h.2.2.2.2 (Nat.le_refl _)⟩

/-- An entry without markers. -/
theorem PemLine.Marked.plain {kind : LineKind} (hend : isEndLine kind = false)
    (redactStart contentEnd lineStart : Nat) :
    (⟨kind, redactStart, contentEnd, lineStart, none⟩ : PemLine).Marked where
  ended h := by
    rw [hend] at h
    cases h
  begun _ m h := by cases h

theorem search_within {a : Re} {text : List Char} {m : Match} (h : search a [] text = some m) :
    m.start ≤ m.stop ∧ m.stop ≤ text.length := by
  obtain ⟨u, v, t, rfl, ht, rfl, -⟩ := search_some h
  obtain ⟨w, hw⟩ := run_reaches a (List.mem_of_mem_head? ht)
  have hpos := hw.pos_eq
  have hlength := congrArg List.length hw.2
  simp only [List.length_append] at hlength
  simp only [found, State.pos, List.length_append, List.length_reverse, List.length_nil] at hpos ⊢
  omega

/-- A match lies within the text. -/
theorem mem_pieces_within {a : Re} {m : Match} {fuel : Nat} : ∀ {behind ahead : List Char},
    .inr m ∈ pieces a fuel behind ahead →
    m.start ≤ m.stop ∧ m.stop ≤ behind.length + ahead.length := by
  induction fuel with
  | zero =>
    intro behind ahead h
    cases h
  | succ fuel ih =>
    intro behind ahead h
    rw [pieces_succ] at h
    split at h
    · next t ht =>
      obtain ⟨w, hw⟩ := run_reaches a (List.mem_of_mem_head? (Option.filter_eq_some_iff.mp ht).1)
      have hpos := hw.pos_eq
      have hlength := congrArg List.length hw.2
      simp only [List.length_append, State.pos] at hlength hpos
      cases h with
      | head =>
        simp only [found, State.pos]
        omega
      | tail _ h =>
        have hrest := ih h
        omega
    · cases ahead with
      | nil => cases h
      | cons c rest =>
        cases h with
        | tail _ h =>
          have hrest := ih h
          simp only [List.length_cons] at hrest ⊢
          omega

theorem finditer_within {a : Re} {text : List Char} {m : Match} (h : m ∈ finditer a text) :
    m.start ≤ m.stop ∧ m.stop ≤ text.length := by
  obtain ⟨piece, hpiece, hright⟩ := List.mem_filterMap.mp h
  cases piece with
  | inl c => cases hright
  | inr m' =>
    cases hright
    have hwithin := mem_pieces_within (show .inr m ∈ pieces a text.length [] text from hpiece)
    rwa [List.length_nil, Nat.zero_add] at hwithin

theorem bodyRunFrom_le (total fuel : Nat) : ∀ (text : List Char) (run : BodyRun), run.runEnd ≤ total →
    (bodyRunFrom total fuel text run).runEnd ≤ total := by
  induction fuel with
  | zero => exact fun _ _ h => h
  | succ fuel ih =>
    intro text run h
    simp only [bodyRunFrom]
    split
    · exact ih _ _ (Nat.sub_le _ _)
    · exact h

theorem pemLeadingBodyRun_le (text : List Char) : (pemLeadingBodyRun text).runEnd ≤ text.length :=
  bodyRunFrom_le _ _ _ _ (Nat.zero_le _)

/-- A marker is classified within its line. -/
theorem classifyMarker_laid {lineStart start : Nat} (hstart : lineStart ≤ start) (stripped : List Char) :
    Laid lineStart (classifyMarker lineStart start stripped) (start + stripped.length) := by
  have hplain : ∀ kind redactStart, isEndLine kind = false → lineStart ≤ redactStart →
    redactStart ≤ start + stripped.length →
      Laid lineStart [⟨kind, redactStart, start + stripped.length, lineStart, none⟩] (start + stripped.length) :=
    fun kind redactStart hkind hlow hhigh => ⟨Nat.le_refl _, hlow, hhigh, .plain hkind .., Nat.le_refl _⟩
  simp only [classifyMarker]
  split
  · next b hb =>
    obtain ⟨hfound, hstop⟩ := Option.filter_eq_some_iff.mp hb
    have hb := search_within hfound
    generalize hrun : (if (search endRe [] stripped).isNone = true then pemLeadingBodyRun (stripped.take b.start)
      else ⟨false, false, 0⟩) = run
    have hle : run.runEnd ≤ b.start := by
      rw [← hrun]
      split
      · exact (pemLeadingBodyRun_le _).trans (List.length_take_le _ _)
      · exact Nat.zero_le _
    split
    · -- the body of the block before
      exact ⟨hstart, Nat.le_refl _, Nat.le_add_right _ _, .plain rfl .., Nat.add_le_add_left hle start, Nat.le_refl _,
        Nat.add_le_add_left (hb.1.trans hb.2) start, .plain rfl .., Nat.le_refl _⟩
    · have hlow : lineStart ≤ start + b.start := Nat.le_trans hstart (Nat.le_add_right _ _)
      refine ⟨Nat.le_refl _, hlow, Nat.add_le_add_left (hb.1.trans hb.2) start,
        ⟨fun h => (by cases h), fun _ m hm => ?_⟩, Nat.le_refl _⟩
      obtain ⟨e, he, rfl⟩ := Option.map_eq_some_iff.mp hm
      have hbefore := of_decide_eq_true (Option.filter_eq_some_iff.mp he).2
      exact ⟨Nat.le_trans hstart (Nat.le_add_right _ _), Nat.add_le_add_left hbefore start⟩
  · next b hopen =>
    have hb := search_within (Option.filter_eq_some_iff.mp hopen).1
    exact hplain _ _ rfl (by omega) (by omega)
  · next e _ he =>
    have he := search_within he
    refine ⟨Nat.le_refl _, hstart, Nat.le_add_right _ _,
      ⟨fun _ => ⟨_, rfl, Nat.le_add_right _ _, Nat.add_le_add_left he.2 start⟩, fun h => ?_⟩, Nat.le_refl _⟩
    exfalso
    simp only at h
    split at h
    · cases h
    · split at h <;> cases h
  · exact hplain _ _ rfl hstart (Nat.le_add_right _ _)

theorem classifyGlued_laid {lineStart start : Nat} (hstart : lineStart ≤ start)
    {stripped : List Char} {lines : List PemLine}
    (h : classifyGlued start stripped = some lines) : Laid lineStart lines (start + stripped.length) := by
  rw [classifyGlued] at h
  split at h
  · cases h
  · next marker hmarker =>
    have hm := search_within hmarker
    simp only at h
    split at h
    · cases h
      generalize hquote :
        ((stripped.take marker.start).takeWhile fun c => c = '>' || c = '+' || c = '-' || isHorizontal c) = quote
      have hrun := pemLeadingBodyRun_le ((stripped.take marker.start).drop quote.length)
      have hfit : quote.length ≤ (stripped.take marker.start).length := by
        rw [← hquote]
        exact (List.takeWhile_prefix _).length_le
      rw [List.length_drop] at hrun
      have htake := List.length_take_le marker.start stripped
      exact ⟨by simp only; omega, Nat.le_refl _, Nat.le_add_right _ _, .plain rfl .., Nat.le_refl _, Nat.le_refl _,
        by simp only; omega, .plain rfl .., Nat.le_refl _⟩
    · cases h

/-! ## A segment and its content -/

/-- How far the content of a segment is from its start. -/
def lead (content : List Char) : Nat :=
  if stripBy isHorizontal content = [] then 0
  else (content.takeWhile fun c => some c ≠ (stripBy isHorizontal content).head?).length

theorem stripped_stands (content : List Char) : Stands content (lead content) (stripBy isHorizontal content) := by
  by_cases hnil : stripBy isHorizontal content = []
  · rw [lead, if_pos hnil, hnil]
    exact ⟨[], content, rfl, rfl⟩
  · rw [lead, if_neg hnil]
    obtain ⟨back, hback⟩ : stripBy isHorizontal content <+: content.dropWhile isHorizontal := List.rdropWhile_prefix _ _
    have hsplit : content = content.takeWhile isHorizontal ++ (stripBy isHorizontal content ++ back) := by
      rw [hback, List.takeWhile_append_dropWhile]
    obtain ⟨c, rest, hcons⟩ := List.exists_cons_of_ne_nil hnil
    have hc : isHorizontal c = false := by
      have hdrop : content.dropWhile isHorizontal = c :: (rest ++ back) := by rw [← hback, hcons, List.cons_append]
      have hhead := List.head_dropWhile_not (p := isHorizontal) (l := content)
        (by rw [hdrop]; exact List.cons_ne_nil _ _)
      simpa [hdrop] using hhead
    -- the first character of the content is not among the blanks before it
    have hfind : (content.takeWhile fun d => some d ≠ (stripBy isHorizontal content).head?) =
        content.takeWhile isHorizontal := by
      rw [hcons, List.head?_cons]
      conv => lhs; rw [hsplit, hcons]
      rw [List.takeWhile_append_of_pos]
      · rw [List.cons_append, List.takeWhile_cons_of_neg (by simp), List.append_nil]
      · intro d hd
        have hblank := List.mem_takeWhile_imp hd
        refine decide_eq_true fun h => ?_
        rw [Option.some.inj h, hc] at hblank
        cases hblank
    rw [hfind]
    exact .of_eq _ hsplit

theorem classifySegment_eq (lineStart : Nat) (content : List Char) : classifySegment lineStart content =
    if hasPrivateKey (stripBy isHorizontal content) then
      classifyMarker lineStart (lineStart + lead content) (stripBy isHorizontal content)
    else (classifyGlued (lineStart + lead content) (stripBy isHorizontal content)).getD
      [⟨plainKind (stripBy isHorizontal content), lineStart + lead content,
        lineStart + lead content + (stripBy isHorizontal content).length, lineStart, none⟩] := by
  have hstart : (if stripBy isHorizontal content = [] then lineStart
      else lineStart + (content.takeWhile fun c => some c ≠ (stripBy isHorizontal content).head?).length) =
        lineStart + lead content := by
    rw [lead]
    split <;> rfl
  simp only [classifySegment, hstart]

theorem plainKind_ne_end (stripped : List Char) : isEndLine (plainKind stripped) = false := by
  simp only [plainKind, bodyKind]
  repeat' split
  all_goals rfl

theorem classifySegment_laid (lineStart : Nat) (content : List Char) :
    Laid lineStart (classifySegment lineStart content) (lineStart + content.length) := by
  have hstands := (stripped_stands content).le
  have hstart : lineStart ≤ lineStart + lead content := Nat.le_add_right _ _
  refine Laid.mono (?_ : Laid lineStart _ (lineStart + lead content + (stripBy isHorizontal content).length))
    (Nat.le_refl _) (by omega)
  rw [classifySegment_eq]
  split
  · exact classifyMarker_laid hstart _
  · cases hglued : classifyGlued (lineStart + lead content) (stripBy isHorizontal content) with
    | some lines => exact classifyGlued_laid hstart hglued
    | none => exact ⟨Nat.le_refl _, hstart, Nat.le_add_right _ _, .plain (plainKind_ne_end _) .., Nat.le_refl _⟩

theorem Cut.laid {text : List Char} {segments : List (Nat × List Char)} {low high : Nat}
    (h : Cut text low segments high) :
    Laid low (segments.flatMap fun segment => classifySegment segment.1 segment.2) high := by
  induction segments generalizing low with
  | nil => exact h
  | cons segment segments ih =>
    exact ((classifySegment_laid segment.1 segment.2).mono h.1 (Nat.le_refl _)).append (ih h.2.2)

/-- The lines of a text are laid out over it. -/
theorem pemLineModel_laid (text : List Char) : Laid 0 (pemLineModel text) text.length := by
  rw [pemLineModel, modelLines_eq]
  exact (segments_cut text).laid

end Pem
