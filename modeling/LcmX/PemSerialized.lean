import LcmX.PemOffsets
import LcmX.Lib.Json
import Mathlib

/-!
# Serialized key text

The kinds of the lines and the slices they delimit are read off what stands in a segment,
wherever it is. A text that was escaped as JSON, at any depth, is cut at its escaped
line breaks into the same segments as the text itself.
-/
namespace Pem

open Regex PyText

/-! ## What the entries say -/

/-- The kinds of the entries with the slices they delimit. -/
def entries (text : List Char) (lines : List PemLine) : List (LineKind × List Char) :=
  lines.map fun line => (line.kind, slice text line.redactStart line.contentEnd)

/-- The entries without the blank ones at the end. -/
def dropBlank (found : List (LineKind × List Char)) : List (LineKind × List Char) :=
  found.rdropWhile fun entry => entry.1 = .blank

/-- The entries of a segment that starts with its content. -/
def strippedEntries (stripped : List Char) : List (LineKind × List Char) :=
  entries stripped (if hasPrivateKey stripped then classifyMarker 0 0 stripped
    else (classifyGlued 0 stripped).getD [⟨plainKind stripped, 0, stripped.length, 0, none⟩])

section

variable {text stripped : List Char} {start : Nat}

theorem entries_classifyMarker (h : Stands text start stripped) (lineStart : Nat) :
    entries text (classifyMarker lineStart start stripped) = entries stripped (classifyMarker 0 0 stripped) := by
  have hwhole : ∀ k, slice text (start + k) (start + stripped.length) = slice stripped k stripped.length :=
    fun k => h.slice_eq k (Nat.le_refl _)
  have hfirst : slice text start (start + stripped.length) = slice stripped 0 stripped.length := hwhole 0
  simp only [classifyMarker]
  split
  · next b hb =>
    have hbound := search_within (Option.filter_eq_some_iff.mp hb).1
    generalize hrun : (if (search endRe [] stripped).isNone = true then pemLeadingBodyRun (stripped.take b.start)
      else ⟨false, false, 0⟩) = run
    have hend : run.runEnd ≤ stripped.length := by
      rw [← hrun]
      split
      · exact (pemLeadingBodyRun_le _).trans ((List.length_take_le _ _).trans (hbound.1.trans hbound.2))
      · exact Nat.zero_le _
    split
    · have hbody : slice text start (start + run.runEnd) = slice stripped 0 run.runEnd := h.slice_eq 0 hend
      simp only [entries, List.map_cons, List.map_nil, Nat.zero_add, hbody, hwhole]
    · simp only [entries, List.map_cons, List.map_nil, Nat.zero_add, hwhole]
  · simp only [entries, List.map_cons, List.map_nil, Nat.zero_add, hwhole]
  · simp only [entries, List.map_cons, List.map_nil, Nat.zero_add, hfirst]
  · simp only [entries, List.map_cons, List.map_nil, Nat.zero_add, hfirst]

theorem entries_classifyGlued (h : Stands text start stripped) :
    (classifyGlued start stripped).map (entries text) = (classifyGlued 0 stripped).map (entries stripped) := by
  rw [classifyGlued, classifyGlued]
  split
  · rfl
  · next marker _ =>
    simp only
    generalize hquote :
      ((stripped.take marker.start).takeWhile fun c => c = '>' || c = '+' || c = '-' || isHorizontal c) = quote
    split
    · have hrun := pemLeadingBodyRun_le ((stripped.take marker.start).drop quote.length)
      rw [List.length_drop] at hrun
      have htake := List.length_take_le marker.start stripped
      have hquoteLe : quote.length ≤ (stripped.take marker.start).length := by
        rw [← hquote]
        exact (List.takeWhile_prefix _).length_le
      have hshort := List.length_take_le' marker.start stripped
      generalize pemLeadingBodyRun ((stripped.take marker.start).drop quote.length) = run at hrun ⊢
      have hbody := h.slice_eq quote.length (by omega : quote.length + run.runEnd ≤ stripped.length)
      have hrest := h.slice_eq (quote.length + run.runEnd) (Nat.le_refl stripped.length)
      rw [← Nat.add_assoc] at hbody hrest
      simp only [Option.map_some, entries, List.map_cons, List.map_nil, Nat.zero_add, hbody, hrest]
    · rfl

/-- The entries of a segment depend on its content alone. -/
theorem entries_classifySegment {text content : List Char} {lineStart : Nat} (h : Stands text lineStart content) :
    entries text (classifySegment lineStart content) = strippedEntries (stripBy isHorizontal content) := by
  have hat := h.trans (stripped_stands content)
  rw [classifySegment_eq, strippedEntries]
  split
  · exact entries_classifyMarker hat _
  · have hglued := entries_classifyGlued hat
    cases hleft : classifyGlued (lineStart + lead content) (stripBy isHorizontal content) with
    | some lines =>
      rw [hleft] at hglued
      obtain ⟨lines', hright, heq⟩ := Option.map_eq_some_iff.mp hglued.symm
      rw [hright]
      exact heq.symm
    | none =>
      rw [hleft] at hglued
      have hright := Option.map_eq_none_iff.mp hglued.symm
      have hslice := hat.slice_eq 0 (Nat.le_refl (stripBy isHorizontal content).length)
      rw [Nat.add_zero] at hslice
      rw [hright]
      simp only [Option.getD_none, entries, List.map_cons, List.map_nil, hslice]

end

theorem Cut.entries_eq {text : List Char} {segments : List (Nat × List Char)} {low high : Nat}
    (h : Cut text low segments high) :
    entries text (segments.flatMap fun segment => classifySegment segment.1 segment.2) =
      (segments.map Prod.snd).flatMap fun content => strippedEntries (stripBy isHorizontal content) := by
  induction segments generalizing low with
  | nil => rfl
  | cons segment segments ih =>
    have hrest := ih h.2.2
    rw [entries] at hrest
    rw [List.flatMap_cons, entries, List.map_append, hrest, List.map_cons, List.flatMap_cons]
    congr 1
    exact entries_classifySegment h.2.1

theorem entries_pemLineModel (text : List Char) : entries text (pemLineModel text) =
    ((textSegments 0 (splitlinesKeep text)).map Prod.snd).flatMap fun content => strippedEntries
    (stripBy isHorizontal content) := by
  rw [pemLineModel, modelLines_eq]
  exact (segments_cut text).entries_eq

theorem strippedEntries_nil : strippedEntries [] = [(.blank, [])] := by decide +kernel

/-! ## Escaped text -/

/-- Printable ASCII without quotes and backslashes. -/
def IsKeyChar (c : Char) : Prop :=
  0x20 ≤ c.toNat ∧ c.toNat ≤ 0x7e ∧ c ≠ Char.ofNat 0x22 ∧ c ≠ Char.ofNat 0x27 ∧ c ≠ '\\'

instance : DecidablePred IsKeyChar := fun _ => inferInstanceAs (Decidable (_ ∧ _))

/-- Such characters and line breaks. -/
def IsKeyText (text : List Char) : Prop := ∀ c ∈ text, IsKeyChar c ∨ isLineBreak c = true

/-- The inside of the JSON string of a text, in ASCII. -/
def jsonInside (text : List Char) : List Char := text.flatMap (Json.escape true)

def serialized (depth : Nat) (text : List Char) : List Char := jsonInside^[depth] text

/-- The characters that `str.splitlines` breaks at. -/
def lineBreaks : List Char := [0x0a, 0x0b, 0x0c, 0x0d, 0x1c, 0x1d, 0x1e, 0x85, 0x2028, 0x2029].map Char.ofNat

theorem mem_lineBreaks {c : Char} (h : isLineBreak c = true) : c ∈ lineBreaks := by
  have hc : c = Char.ofNat c.toNat := (Char.ofNat_toNat c).symm
  simp only [isLineBreak, Bool.or_eq_true, Bool.and_eq_true, decide_eq_true_eq] at h
  have hcases : c.toNat ∈ [0x0a, 0x0b, 0x0c, 0x0d, 0x1c, 0x1d, 0x1e, 0x85, 0x2028, 0x2029] := by
    simp only [List.mem_cons, List.not_mem_nil, or_false]
    omega
  rw [hc]
  exact List.mem_map_of_mem hcases

/-- What follows the backslash in the escape of a line break. -/
def breakEscape (c : Char) : List Char := (Json.escape true c).tail

theorem escape_break : ∀ c ∈ lineBreaks, Json.escape true c = '\\' :: breakEscape c := forall_mem_of_all (by decide)

theorem breakEscape_key : ∀ c ∈ lineBreaks, ∀ x ∈ breakEscape c, IsKeyChar x := by
  have hall : ∀ c ∈ lineBreaks, ((breakEscape c).all fun x => decide (IsKeyChar x)) = true :=
    forall_mem_of_all (by decide)
  exact fun c hc => forall_mem_of_all (hall c hc)

/-- A line break behind some number of backslashes, and the other characters as they are. -/
def escaped (slashes : Nat) (c : Char) : List Char :=
  if isLineBreak c then List.replicate slashes '\\' ++ breakEscape c else [c]

def deep (slashes : Nat) (text : List Char) : List Char := text.flatMap (escaped slashes)

theorem IsKeyChar.escape {c : Char} (h : IsKeyChar c) : Json.escape true c = [c] := by
  obtain ⟨hlow, hhigh, hquote, -, hslash⟩ := h
  have hne : ∀ d : Char, d.toNat < 0x20 → c ≠ d := fun d hd heq => by
    rw [heq] at hlow
    omega
  have hrange : ¬ (c.toNat < 32 ∨ (true = true ∧ 126 < c.toNat)) := by omega
  rw [Json.escape, if_neg hquote, if_neg hslash, if_neg (hne _ (by decide)),
    if_neg (hne _ (by decide)), if_neg (hne _ (by decide)),
    if_neg (by omega), if_neg (by omega), if_neg hrange]

theorem IsKeyChar.notBreak {c : Char} (h : IsKeyChar c) : isLineBreak c = false := by
  obtain ⟨hlow, hhigh, -⟩ := h
  simp only [isLineBreak, Bool.or_eq_false_iff, Bool.and_eq_false_iff, decide_eq_false_iff_not]
  omega

theorem jsonInside_key {w : List Char} (h : ∀ c ∈ w, IsKeyChar c) : jsonInside w = w := by
  induction w with
  | nil => rfl
  | cons c w ih =>
    rw [jsonInside, List.flatMap_cons, (h c List.mem_cons_self).escape]
    exact congrArg (c :: ·) (ih fun d hd => h d (List.mem_cons_of_mem _ hd))

theorem jsonInside_slashes (n : Nat) : jsonInside (List.replicate n '\\') = List.replicate (2 * n) '\\' := by
  induction n with
  | zero => rfl
  | succ n ih =>
    rw [List.replicate_succ, jsonInside, List.flatMap_cons, ← jsonInside, ih, Nat.mul_succ,
      Nat.add_comm, List.replicate_add]
    rfl

theorem jsonInside_append (v w : List Char) : jsonInside (v ++ w) = jsonInside v ++ jsonInside w := List.flatMap_append

section

variable {text : List Char}

theorem IsKeyText.tail {c : Char} (h : IsKeyText (c :: text)) : IsKeyText text :=
  fun d hd => h d (List.mem_cons_of_mem _ hd)

theorem jsonInside_eq (h : IsKeyText text) : jsonInside text = deep 1 text := by
  refine List.flatMap_congr fun c hc => ?_
  obtain hkey | hbreak := h c hc
  · rw [hkey.escape, escaped, hkey.notBreak]
    rfl
  · rw [escape_break c (mem_lineBreaks hbreak), escaped, if_pos hbreak]
    rfl

/-- One more level doubles the backslashes. -/
theorem jsonInside_deep (h : IsKeyText text) (slashes : Nat) :
    jsonInside (deep slashes text) = deep (2 * slashes) text := by
  rw [jsonInside, deep, List.flatMap_assoc]
  refine List.flatMap_congr fun c hc => ?_
  obtain hkey | hbreak := h c hc
  · rw [escaped, escaped, hkey.notBreak]
    exact jsonInside_key fun d hd => by rwa [List.mem_singleton.mp hd]
  · rw [escaped, escaped, if_pos hbreak, if_pos hbreak, ← jsonInside, jsonInside_append, jsonInside_slashes,
      jsonInside_key (breakEscape_key c (mem_lineBreaks hbreak))]

theorem serialized_eq (h : IsKeyText text) (n : Nat) : serialized (n + 1) text = deep (2 ^ n) text := by
  induction n with
  | zero => exact jsonInside_eq h
  | succ n ih =>
    rw [serialized, Function.iterate_succ_apply', ← serialized, ih, jsonInside_deep h, Nat.pow_succ, Nat.mul_comm]

theorem deep_cons_key {c : Char} (h : IsKeyChar c) (slashes : Nat) :
    deep slashes (c :: text) = c :: deep slashes text := by
  rw [deep, List.flatMap_cons, escaped, h.notBreak]
  rfl

theorem deep_cons_break {c : Char} (h : isLineBreak c = true) (slashes : Nat) :
    deep slashes (c :: text) = List.replicate slashes '\\' ++ (breakEscape c ++ deep slashes text) := by
  rw [deep, List.flatMap_cons, escaped, if_pos h, List.append_assoc]
  rfl

/-- Escaped text is on one line. -/
theorem deep_plain (h : IsKeyText text) (slashes : Nat) : ∀ x ∈ deep slashes text, isLineBreak x = false := by
  intro x hx
  obtain ⟨c, hc, hx⟩ := List.mem_flatMap.mp hx
  obtain hkey | hbreak := h c hc
  · rw [escaped, hkey.notBreak] at hx
    rw [List.mem_singleton.mp hx]
    exact hkey.notBreak
  · rw [escaped, if_pos hbreak] at hx
    obtain hx | hx := List.mem_append.mp hx
    · rw [List.eq_of_mem_replicate hx]
      decide
    · exact (breakEscape_key c (mem_lineBreaks hbreak) x hx).notBreak

end

/-! ## The lines of the text -/

/-- The text cut at its line breaks, with what follows the last one. -/
def breakPieces (piece : List Char) : List Char → List (List Char)
  | [] => [piece]
  | c :: rest =>
    if lineEnds c rest then piece :: breakPieces [] rest
    else if isLineBreak c then breakPieces piece rest
    else breakPieces (piece ++ [c]) rest

theorem dropLineBreak_break {piece : List Char} (hplain : ∀ c ∈ piece, isLineBreak c = false)
    {c : Char} (hc : isLineBreak c = true) :
    dropLineBreak (piece ++ [c]) = piece := by
  have hcarriage : ¬ piece.getLast? = some '\r' := fun h => by
    have hbreak := hplain '\r' (List.mem_of_getLast? h)
    exact absurd hbreak (by decide)
  simp [dropLineBreak, hcarriage, hc]

theorem dropLineBreak_pair (piece : List Char) :
    dropLineBreak (piece ++ ['\r'] ++ ['\n']) = piece := by simp [dropLineBreak]

/-- A carriage return that does not end its line is followed by a line feed. -/
theorem carriage_of_not_ends {c : Char} {rest : List Char} (hbreak : isLineBreak c = true)
    (hends : lineEnds c rest = false) :
    c = '\r' ∧ rest.head? = some '\n' := by
  simpa [lineEnds, hbreak] using hends

/-- The pieces are the lines without their breaks, with one more blank one at the most; `held` is a carriage
return whose line feed is next. -/
theorem breakPieces_lines (text : List Char) : ∀ {piece held : List Char}, (∀ c ∈ piece, isLineBreak c = false) →
    (held = [] ∨ (held = ['\r'] ∧ text.head? = some '\n')) →
      ∃ blank, (blank = [] ∨ blank = [[]]) ∧
      breakPieces piece text = (linesFrom (piece ++ held) text).map dropLineBreak ++ blank := by
  induction text with
  | nil =>
    intro piece held hplain hheld
    obtain rfl | ⟨-, hnext⟩ := hheld
    · rw [breakPieces, List.append_nil, linesFrom]
      split
      · next hnil => exact ⟨[[]], .inr rfl, by rw [hnil]; rfl⟩
      · exact ⟨[], .inl rfl, by rw [List.map_singleton, dropLineBreak_last hplain, List.append_nil]⟩
    · cases hnext
  | cons c rest ih =>
    intro piece held hplain hheld
    rw [breakPieces, linesFrom]
    split
    · next hends =>
      obtain ⟨blank, hblank, heq⟩ := @ih [] [] (fun _ h => by cases h) (.inl rfl)
      refine ⟨blank, hblank, ?_⟩
      have hbreak : isLineBreak c = true := by
        rw [lineEnds, Bool.and_eq_true] at hends
        exact hends.1
      have hline : dropLineBreak (piece ++ held ++ [c]) = piece := by
        obtain rfl | ⟨rfl, hnext⟩ := hheld
        · rw [List.append_nil]
          exact dropLineBreak_break hplain hbreak
        · cases hnext
          exact dropLineBreak_pair piece
      rw [List.map_cons, hline, heq]
      rfl
    · next hends =>
      have hfalse : lineEnds c rest = false := by simpa using hends
      split
      · next hbreak =>
        obtain ⟨rfl, hfeed⟩ := carriage_of_not_ends hbreak hfalse
        obtain rfl | ⟨-, hnext⟩ := hheld
        · rw [List.append_nil]
          exact ih hplain (.inr ⟨rfl, hfeed⟩)
        · cases hnext
      · next hbreak =>
        have hheldNil : held = [] := by
          obtain rfl | ⟨-, hnext⟩ := hheld
          · rfl
          · cases hnext
            exact absurd (by decide) hbreak
        rw [hheldNil, List.append_nil]
        refine (@ih (piece ++ [c]) [] (fun d hd => ?_) (.inl rfl)).imp
          fun blank h => ⟨h.1, by rw [h.2, List.append_nil]⟩
        obtain hd | hd := List.mem_append.mp hd
        · exact hplain d hd
        · rw [List.mem_singleton.mp hd]
          simpa using hbreak

/-! ## The pieces of the escaped text -/

/-- Behind its backslashes the escape of a line break is read as a separator. -/
theorem separatorLength_break {c : Char} (h : c ∈ lineBreaks) (hc : c ≠ '\r') (rest : List Char) :
    separatorLength (breakEscape c ++ rest) = some (breakEscape c).length := by
  have hunits : ∀ w : List Char, w.length = 4 →
    String.ofList w ∈ ["000b", "000c", "001c", "001d", "001e", "0085", "2028", "2029"] →
      separatorLength ('u' :: w ++ rest) = some ('u' :: w).length := by
    intro w hw hmem
    rw [List.cons_append, separatorLength, List.take_append_of_le_length (by omega),
      List.take_of_length_le (by omega), if_pos hmem,
      List.length_cons, hw]
  simp only [lineBreaks, List.map_cons, List.map_nil, List.mem_cons, List.not_mem_nil, or_false] at h
  obtain rfl | rfl | rfl | rfl | rfl | rfl | rfl | rfl | rfl | rfl := h
  · rfl
  · exact hunits ['0', '0', '0', 'b'] rfl (by decide)
  · rfl
  · exact absurd rfl hc
  · exact hunits ['0', '0', '1', 'c'] rfl (by decide)
  · exact hunits ['0', '0', '1', 'd'] rfl (by decide)
  · exact hunits ['0', '0', '1', 'e'] rfl (by decide)
  · exact hunits ['0', '0', '8', '5'] rfl (by decide)
  · exact hunits ['2', '0', '2', '8'] rfl (by decide)
  · exact hunits ['2', '0', '2', '9'] rfl (by decide)

theorem slashes_run {x : Char} (hx : x ≠ '\\') (n : Nat) (rest : List Char) :
    slashes (List.replicate n '\\' ++ x :: rest) = List.replicate n '\\' ∧
      pastSlashes (List.replicate n '\\' ++ x :: rest) = x :: rest := by
  induction n with
  | zero => exact ⟨List.takeWhile_cons_of_neg (by simpa using hx), List.dropWhile_cons_of_neg (by simpa using hx)⟩
  | succ n ih =>
    rw [List.replicate_succ, List.cons_append]
    exact ⟨(List.takeWhile_cons_of_pos (by decide)).trans (congrArg ('\\' :: ·) ih.1),
      (List.dropWhile_cons_of_pos (by decide)).trans ih.2⟩

theorem breakEscape_cons : ∀ c ∈ lineBreaks, ∃ x w, breakEscape c = x :: w ∧ x ≠ '\\' ∧ (x = 'n' → c = '\n') := by
  have hhead : ∀ c ∈ lineBreaks, (breakEscape c).head?.any fun x => x ≠ '\\' && (x ≠ 'n' || c = '\n') :=
    forall_mem_of_all (by decide)
  intro c hc
  have h := hhead c hc
  cases hbreak : breakEscape c with
  | nil =>
    rw [hbreak] at h
    cases h
  | cons x w =>
    rw [hbreak, List.head?_cons, Option.any_some, Bool.and_eq_true, Bool.or_eq_true,
      decide_eq_true_eq, decide_eq_true_eq,
      decide_eq_true_eq] at h
    exact ⟨x, w, rfl, h.1, fun hx => h.2.resolve_left fun hne => hne hx⟩

section

variable {text : List Char} {n : Nat}

/-- A carriage return alone is a separator, whatever is escaped behind it. -/
theorem separatorLength_carriage (h : IsKeyText text) (hnext : text.head? ≠ some '\n') :
    separatorLength ('r' :: deep n text) = some 1 := by
  rw [separatorLength, if_neg]
  rintro ⟨hrun, hfeed⟩
  cases text with
  | nil => exact hrun rfl
  | cons d rest =>
    obtain hkey | hbreak := h d List.mem_cons_self
    · rw [deep_cons_key hkey, slashes, List.takeWhile_cons_of_neg (by simpa using hkey.2.2.2.2)] at hrun
      exact hrun rfl
    · obtain ⟨x, w, hx, hslash, hn⟩ := breakEscape_cons d (mem_lineBreaks hbreak)
      rw [deep_cons_break hbreak, hx, List.cons_append, (slashes_run hslash n _).2, List.head?_cons,
        Option.some.injEq] at hfeed
      exact hnext (congrArg some (hn hfeed))

theorem separatorLength_pair (hn : 0 < n) (rest : List Char) :
    separatorLength ('r' :: (List.replicate n '\\' ++ 'n' :: rest)) = some (n + 2) := by
  have hrun := slashes_run (by decide : 'n' ≠ '\\') n rest
  rw [separatorLength, hrun.1, hrun.2, List.length_replicate, if_pos]
  refine ⟨fun hnil => ?_, rfl⟩
  rw [List.replicate_eq_nil_iff] at hnil
  omega

/-- One escaped separator ends a piece. -/
theorem serializedPieces_separator {fuel start i length : Nat} {c : Char} {piece rest : List Char}
    (hn : 0 < n) (hc : c ≠ '\\')
    (hlength : separatorLength (c :: rest) = some length) :
    (serializedPieces (fuel + 1) start i piece (List.replicate n '\\' ++ c :: rest)).map Prod.snd =
      piece :: (serializedPieces fuel (i + n + length) (i + n + length) [] ((c :: rest).drop length)).map Prod.snd := by
  obtain ⟨m, rfl⟩ : ∃ m, n = m + 1 := ⟨n - 1, by omega⟩
  have hrun := slashes_run hc (m + 1) rest
  rw [List.replicate_succ, List.cons_append] at hrun ⊢
  rw [serializedPieces, if_neg (by decide), if_neg (by decide)]
  simp only [hrun.1, hrun.2, hlength, List.length_cons, List.length_replicate, List.map_cons]

/-- The escaped text is cut into the pieces of the text. -/
theorem serializedPieces_deep (hn : 0 < n) (fuel : Nat) : ∀ {text piece : List Char} {start i : Nat}, IsKeyText text →
    (deep n text).length < fuel → (serializedPieces fuel start i piece (deep n text)).map Prod.snd =
      breakPieces piece text := by
  induction fuel with
  | zero => exact fun _ hfuel => absurd hfuel (Nat.not_lt_zero _)
  | succ fuel ih =>
    intro text piece start i h hfuel
    cases text with
    | nil => rfl
    | cons c rest =>
      obtain hkey | hbreak := h c List.mem_cons_self
      · -- a character of the line
        rw [deep_cons_key hkey] at hfuel ⊢
        have hends : lineEnds c rest = false := by simp [lineEnds, hkey.notBreak]
        rw [serializedPieces, if_neg (by rintro (hq | hq); exacts [hkey.2.2.1 hq, hkey.2.2.2.1 hq]),
          if_pos hkey.2.2.2.2, breakPieces, hends,
          if_neg (by decide), hkey.notBreak, if_neg (by decide)]
        exact ih h.tail (by simpa using hfuel)
      · have hmem := mem_lineBreaks hbreak
        rw [deep_cons_break hbreak] at hfuel ⊢
        rw [List.length_append, List.length_append, List.length_replicate] at hfuel
        by_cases hends : lineEnds c rest
        · -- the break ends the line, and its escape is a separator
          obtain ⟨x, w, hx, hslash, -⟩ := breakEscape_cons c hmem
          have hlength : separatorLength (breakEscape c ++ deep n rest) = some (breakEscape c).length := by
            by_cases hc : c = '\r'
            · subst hc
              refine separatorLength_carriage h.tail fun hfeed => ?_
              simp [lineEnds, hfeed] at hends
            · exact separatorLength_break hmem hc _
          rw [breakPieces, if_pos hends, hx, List.cons_append,
            serializedPieces_separator hn hslash (by rw [← List.cons_append, ← hx]; exact hlength)]
          congr 1
          rw [← List.cons_append, ← hx, List.drop_left]
          exact ih h.tail (by omega)
        · -- a carriage return and its line feed are one separator
          have hfalse : lineEnds c rest = false := by simpa using hends
          obtain ⟨rfl, hfeed⟩ := carriage_of_not_ends hbreak hfalse
          obtain ⟨rest', rfl⟩ : ∃ rest', rest = '\n' :: rest' := by
            cases rest with
            | nil => cases hfeed
            | cons d rest' =>
              cases hfeed
              exact ⟨rest', rfl⟩
          have hfeedBreak : isLineBreak '\n' = true := by decide
          have hdeep : breakEscape '\r' ++ deep n ('\n' :: rest') =
              'r' :: (List.replicate n '\\' ++ 'n' :: deep n rest') := by
            rw [deep_cons_break hfeedBreak]
            rfl
          have hdrop : ('r' :: (List.replicate n '\\' ++ 'n' :: deep n rest')).drop (n + 2) = deep n rest' := by
            rw [List.drop_succ_cons, List.drop_append, List.drop_eq_nil_of_le (by simp)]
            simp
          rw [breakPieces, hfalse, if_neg (by decide), if_pos (by decide), breakPieces,
            if_pos (by simp [lineEnds, hfeedBreak]), hdeep,
            serializedPieces_separator hn (by decide) (separatorLength_pair hn _), hdrop]
          congr 1
          refine ih h.tail.tail ?_
          rw [deep_cons_break hfeedBreak] at hfuel
          simp only [List.length_append] at hfuel
          omega

/-! ## The two models -/

/-- An escaped line break is seen as a separator. -/
theorem escapedSeparator_found (hn : 0 < n) {c : Char} (hc : c ∈ text) (hbreak : isLineBreak c = true) :
    (search escapedSeparatorHintRe [] (deep n text)).isSome := by
  rw [Option.isSome_iff_ne_none]
  intro hnone
  obtain ⟨front, back, rfl⟩ := List.append_of_mem hc
  obtain ⟨m, rfl⟩ : ∃ m, n = m + 1 := ⟨n - 1, by omega⟩
  have hletter : ∀ d ∈ lineBreaks, (breakEscape d).head?.any fun x => x = 'r' || x = 'n' || x = 'f' || x = 'u' :=
      forall_mem_of_all (by decide)
  have hhead := hletter c (mem_lineBreaks hbreak)
  cases hescape : breakEscape c with
  | nil =>
    rw [hescape] at hhead
    cases hhead
  | cons x w =>
    rw [hescape, List.head?_cons, Option.any_some] at hhead
    have hsplit : deep (m + 1) (front ++ c :: back) =
        (deep (m + 1) front ++ List.replicate m '\\') ++ '\\' :: x :: (w ++ deep (m + 1) back) := by
      rw [deep, List.flatMap_append, ← deep, ← deep, deep_cons_break hbreak, hescape, List.replicate_succ']
      simp
    have hmatch := search_none hnone _ _ hsplit
    simp only [Bool.or_eq_true, decide_eq_true_eq] at hhead
    simp [matchAt, escapedSeparatorHintRe, run, State.next] at hmatch
    obtain ⟨⟨⟨hr, hn⟩, hf⟩, hu⟩ := hmatch
    obtain ((hx | hx) | hx) | hx := hhead
    · exact hr hx
    · exact hn hx
    · exact hf hx
    · exact hu hx

theorem skipTabs_plain (fuel : Nat) : ∀ {w : List Char}, '\\' ∉ w →
    ∃ front, w = front ++ skipTabs fuel w ∧ ∀ c ∈ front, isHorizontal c = true := by
  induction fuel with
  | zero => exact fun {w} _ => ⟨[], rfl, fun _ h => by cases h⟩
  | succ fuel ih =>
    intro w h
    cases w with
    | nil => exact ⟨[], rfl, fun _ h => by cases h⟩
    | cons c rest =>
      rw [skipTabs]
      split
      · next hc =>
        obtain ⟨front, heq, hfront⟩ := ih fun hmem => h (List.mem_cons_of_mem _ hmem)
        refine ⟨c :: front, by rw [List.cons_append, ← heq], fun d hd => ?_⟩
        cases hd with
        | head => exact hc
        | tail _ hd => exact hfront d hd
      · split
        · next hslash => exact absurd (hslash.1 ▸ List.mem_cons_self) h
        · exact ⟨[], rfl, fun _ h => by cases h⟩

theorem trimTabsBack_plain (fuel : Nat) : ∀ {w : List Char}, '\\' ∉ w →
    ∃ front, w = front ++ trimTabsBack fuel w ∧ ∀ c ∈ front, isHorizontal c = true := by
  induction fuel with
  | zero => exact fun {w} _ => ⟨[], rfl, fun _ h => by cases h⟩
  | succ fuel ih =>
    intro w h
    cases w with
    | nil => exact ⟨[], rfl, fun _ h => by cases h⟩
    | cons c rest =>
      have hrest : '\\' ∉ rest := fun hmem => h (List.mem_cons_of_mem _ hmem)
      rw [trimTabsBack]
      split
      · next hc =>
        obtain ⟨front, heq, hfront⟩ := ih hrest
        refine ⟨c :: front, by rw [List.cons_append, ← heq], fun d hd => ?_⟩
        cases hd with
        | head => exact hc.resolve_right fun hslash => h (hslash ▸ List.mem_cons_self)
        | tail _ hd => exact hfront d hd
      · split
        · next htab =>
          have hnone : slashes rest = [] := by
            cases rest with
            | nil => rfl
            | cons d rest =>
              exact List.takeWhile_cons_of_neg (by simpa using fun heq : d = '\\' => hrest (heq ▸ List.mem_cons_self))
          exact absurd hnone htab.2
        · exact ⟨[], rfl, fun _ h => by cases h⟩

/-- A piece without backslashes loses blanks only. -/
theorem strip_trimPemSegment {w : List Char} (h : '\\' ∉ w) :
    stripBy isHorizontal (trimPemSegment w).2 = stripBy isHorizontal w := by
  obtain ⟨front, hfront, hblank⟩ := skipTabs_plain w.length h
  have hrest : '\\' ∉ (skipTabs w.length w).reverse := by
    rw [List.mem_reverse]
    exact fun hmem => h (hfront ▸ List.mem_append_right _ hmem)
  obtain ⟨back, hback, hblank'⟩ := trimTabsBack_plain (skipTabs w.length w).length hrest
  have hsplit := congrArg List.reverse hback
  rw [List.reverse_reverse, List.reverse_append] at hsplit
  have hwhole : w = front ++ ((trimPemSegment w).2 ++ back.reverse) := by
    rw [trimPemSegment, ← hsplit]
    exact hfront
  conv => rhs; rw [hwhole]
  exact (stripBy_append_spaces hblank (fun c hc => hblank' c (List.mem_reverse.mp hc)) _).symm

/-- The pieces of such a text hold none of its line breaks, so none of the backslashes either. -/
theorem mem_breakPieces : ∀ {text piece w : List Char}, w ∈ breakPieces piece text →
    ∀ x ∈ w, x ∈ piece ∨ (x ∈ text ∧ isLineBreak x = false) := by
  intro text
  induction text with
  | nil =>
    intro piece w hw x hx
    rw [List.mem_singleton.mp hw] at hx
    exact .inl hx
  | cons c rest ih =>
    intro piece w hw x hx
    have hlater : ∀ {v : List Char}, w ∈ breakPieces v rest → (∀ y ∈ v, y ∈ piece ∨ (y = c ∧ isLineBreak c = false)) →
        x ∈ piece ∨ (x ∈ c :: rest ∧ isLineBreak x = false) := by
      intro v hmem hv
      obtain hin | ⟨hin, hplain⟩ := ih hmem x hx
      · obtain hpiece | ⟨rfl, hplain⟩ := hv x hin
        · exact .inl hpiece
        · exact .inr ⟨List.mem_cons_self, hplain⟩
      · exact .inr ⟨List.mem_cons_of_mem _ hin, hplain⟩
    rw [breakPieces] at hw
    split at hw
    · cases hw with
      | head => exact .inl hx
      | tail _ hw => exact hlater hw fun y hy => by cases hy
    · split at hw
      · exact hlater hw fun y hy => .inl hy
      · next hbreak =>
        refine hlater hw fun y hy => ?_
        obtain hy | hy := List.mem_append.mp hy
        · exact .inl hy
        · exact .inr ⟨List.mem_singleton.mp hy, by simpa using hbreak⟩

/-- The segments of a text without escapes are its lines. -/
theorem textSegments_plain {lines : List (List Char)}
    (h : ∀ raw ∈ lines, search escapedSeparatorHintRe [] (dropLineBreak raw) = none) :
    ∀ offset, (textSegments offset lines).map Prod.snd = lines.map dropLineBreak := by
  induction lines with
  | nil => exact fun _ => rfl
  | cons raw lines ih =>
    intro offset
    have hraw := h raw List.mem_cons_self
    have hsegment : lineSegments offset raw = [(offset, dropLineBreak raw)] := by
      simp [lineSegments, hraw]
    rw [textSegments, hsegment, List.map_append, ih fun line hline => h line (List.mem_cons_of_mem _ hline)]
    rfl

theorem search_hint_plain {w : List Char} (hslash : '\\' ∉ w) (hquotes : Char.ofNat 0x22 ∉ w ∧ Char.ofNat 0x27 ∉ w) :
    search escapedSeparatorHintRe [] w = none := by
  refine search_eq_none fun u v huv => ?_
  subst huv
  cases v with
  | nil => rfl
  | cons c rest =>
    have hc : c ≠ '\\' ∧ c ≠ Char.ofNat 0x22 ∧ c ≠ Char.ofNat 0x27 :=
      ⟨fun h => hslash (by simp [h]), fun h => hquotes.1 (by simp [h]), fun h => hquotes.2 (by simp [h])⟩
    have hd : ¬ c = Char.ofNat 0x22 := hc.2.1
    have hs : ¬ c = Char.ofNat 0x27 := hc.2.2
    simp only [escapedSeparatorHintRe, run, State.next]
    simp [hc.1, hd, hs]

end

/-- No character of such a text is a backslash or a quote. -/
theorem IsKeyText.ne {text : List Char} (h : IsKeyText text) {x : Char} (hx : x ∈ text) :
    x ≠ '\\' ∧ x ≠ Char.ofNat 0x22 ∧ x ≠ Char.ofNat 0x27 := by
  have hbreaks : ∀ c ∈ lineBreaks, c ≠ '\\' ∧ c ≠ Char.ofNat 0x22 ∧ c ≠ Char.ofNat 0x27 := forall_mem_of_all (by decide)
  obtain hkey | hbreak := h x hx
  · exact ⟨hkey.2.2.2.2, hkey.2.2.1, hkey.2.2.2.1⟩
  · exact hbreaks x (mem_lineBreaks hbreak)

theorem entries_plain {text : List Char} (h : IsKeyText text) : entries text (pemLineModel text) =
    (splitlines text).flatMap fun content => strippedEntries (stripBy isHorizontal content) := by
  rw [entries_pemLineModel, textSegments_plain, splitlines]
  intro raw hraw
  have hline : dropLineBreak raw <:+: text := infix_of_mem_splitlines (List.mem_map_of_mem hraw)
  have hne : ∀ x ∈ dropLineBreak raw, x ≠ '\\' ∧ x ≠ Char.ofNat 0x22 ∧ x ≠ Char.ofNat 0x27 :=
    fun x hx => h.ne (hline.subset hx)
  exact search_hint_plain (fun hx => (hne _ hx).1 rfl) ⟨fun hx => (hne _ hx).2.1 rfl, fun hx => (hne _ hx).2.2 rfl⟩

/-- An escaped text with a line break has the pieces of the text for segments. -/
theorem entries_deep {text : List Char} {n : Nat} (h : IsKeyText text) (hn : 0 < n) {c : Char} (hc : c ∈ text)
    (hbreak : isLineBreak c = true) : entries (deep n text) (pemLineModel (deep n text)) =
      (breakPieces [] text).flatMap fun content => strippedEntries (stripBy isHorizontal content) := by
  have hplain := deep_plain h n
  have hfound := escapedSeparator_found hn hc hbreak
  have hlines : splitlinesKeep (deep n text) = [deep n text] := by
    refine splitlinesKeep_last hplain fun hnil => ?_
    rw [hnil] at hfound
    exact absurd hfound (by decide)
  have hpieces : (splitSerializedPemLine (deep n text)).map Prod.snd = breakPieces [] text :=
    serializedPieces_deep hn _ h (Nat.lt_succ_self _)
  rw [entries_pemLineModel, hlines, textSegments, textSegments, List.append_nil, lineSegments,
    dropLineBreak_last hplain, if_pos hfound,
    ← hpieces, List.map_map, List.flatMap_map, List.flatMap_map]
  refine List.flatMap_congr fun piece hpiece => ?_
  have hslash : '\\' ∉ piece.2 := by
    intro hx
    obtain hnone | ⟨hin, -⟩ :=
      mem_breakPieces (hpieces ▸ List.mem_map_of_mem hpiece : piece.2 ∈ breakPieces [] text) _ hx
    · cases hnone
    · exact (h.ne hin).1 rfl
  exact congrArg strippedEntries (strip_trimPemSegment hslash)

/-- Escaped key text of any depth has the lines of the text itself: the same kinds, delimiting the same
slices. -/
theorem serialized_entries (text : List Char) (depth : Nat) (htext : IsKeyText text) (hdepth : 1 ≤ depth) :
    dropBlank (entries (serialized depth text) (pemLineModel (serialized depth text))) =
      dropBlank (entries text (pemLineModel text)) := by
  obtain ⟨n, rfl⟩ : ∃ n, depth = n + 1 := ⟨depth - 1, by omega⟩
  rw [serialized_eq htext]
  by_cases hbroken : ∃ c ∈ text, isLineBreak c = true
  · obtain ⟨c, hc, hbreak⟩ := hbroken
    rw [entries_deep htext (Nat.pow_pos (by decide)) hc hbreak, entries_plain htext]
    obtain ⟨blank, hblank, heq⟩ := @breakPieces_lines text [] [] (fun _ h => by cases h) (.inl rfl)
    rw [heq, List.append_nil, ← splitlinesKeep, ← splitlines, List.flatMap_append]
    obtain rfl | rfl := hblank
    · rw [List.flatMap_nil, List.append_nil]
    · -- the text ends with a line break, and its escape is followed by an empty piece
      have hnil : stripBy isHorizontal [] = [] := rfl
      rw [List.flatMap_singleton, hnil, strippedEntries_nil]
      exact List.rdropWhile_concat_pos _ _ _ (by decide)
  · -- nothing is escaped
    have hkey : ∀ c ∈ text, isLineBreak c = false := fun c hc => by
      by_contra hbreak
      exact hbroken ⟨c, hc, by simpa using hbreak⟩
    have hsame : deep (2 ^ n) text = text := by
      have hone : ∀ c ∈ text, escaped (2 ^ n) c = [c] := fun c hc => by rw [escaped, hkey c hc, if_neg (by decide)]
      rw [deep, List.flatMap_congr hone]
      exact List.flatMap_singleton' text
    rw [hsame]

theorem serialized_entries_two_lines : dropBlank (entries (serialized 2 ['M', 'I', '\n', '4', '=', '\n'])
      (pemLineModel (serialized 2 ['M', 'I', '\n', '4', '=', '\n']))) =
    dropBlank (entries ['M', 'I', '\n', '4', '=', '\n'] (pemLineModel ['M', 'I', '\n', '4', '=', '\n'])) :=
  serialized_entries _ 2 (by
    intro c hc
    simp only [List.mem_cons, List.not_mem_nil, or_false] at hc
    obtain rfl | rfl | rfl | rfl | rfl | rfl := hc <;> decide) (by decide)

end Pem
