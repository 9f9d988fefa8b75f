import LcmX.Lib.Occurrences

/-!
# Edges and lines of a text

Where a stripped text starts and ends, the last of its lines, and where a needle stands
in a text that is put together.
-/
namespace PyText

/-! ## Edges -/

/-- The text neither starts nor ends with a space. -/
structure IsTrimmed (text : List Char) : Prop where
  first : ∀ c ∈ text.head?, isSpace c = false
  last : ∀ c ∈ text.getLast?, isSpace c = false

section

variable {text : List Char}

theorem dropWhile_of_head {p : Char → Bool} (h : ∀ c ∈ text.head?, p c = false) : text.dropWhile p = text := by
  cases text with
  | nil => rfl
  | cons c rest => rw [List.dropWhile_cons_of_neg (by rw [h c rfl]; decide)]

theorem rdropWhile_of_last {p : Char → Bool} (h : ∀ c ∈ text.getLast?, p c = false) : text.rdropWhile p = text := by
  rw [List.rdropWhile_eq_self_iff]
  intro hne
  rw [h _ (List.getLast?_eq_some_getLast hne)]
  decide

theorem head_rdropWhile {p : Char → Bool} {c : Char} (h : (text.rdropWhile p).head? = some c) :
    text.head? = some c := by
  obtain ⟨rest, hrest⟩ := List.rdropWhile_prefix p text
  rw [← hrest, List.head?_append, h]
  rfl

theorem last_rdropWhile (p : Char → Bool) (text : List Char) : ∀ c ∈ (text.rdropWhile p).getLast?, p c = false := by
  intro c hc
  have hne : text.rdropWhile p ≠ [] := by
    intro hnil
    rw [hnil] at hc
    cases hc
  rw [List.getLast?_eq_some_getLast hne] at hc
  rw [← Bool.not_eq_true, ← Option.some.inj hc]
  exact List.rdropWhile_last_not p text hne

theorem isTrimmed_strip (text : List Char) : IsTrimmed (strip text) := by
  refine ⟨fun c hc => ?_, last_rdropWhile isSpace _⟩
  have hfirst := List.head?_dropWhile_not isSpace text
  rw [head_rdropWhile hc] at hfirst
  simpa using hfirst

theorem IsTrimmed.strip_eq (h : IsTrimmed text) : strip text = text := by
  rw [strip, stripBy, dropWhile_of_head h.first, rdropWhile_of_last h.last]

theorem stripBy_append_spaces {p : Char → Bool} {a b : List Char} (ha : ∀ c ∈ a, p c = true)
    (hb : ∀ c ∈ b, p c = true) (text : List Char) :
    stripBy p (a ++ (text ++ b)) = stripBy p text := by
  have hfront : ∀ rest, (a ++ rest).dropWhile p = rest.dropWhile p := by
    intro rest
    rw [List.dropWhile_append, List.dropWhile_eq_nil_iff.mpr ha]
    rfl
  have hback : ∀ front, (front ++ b).rdropWhile p = front.rdropWhile p := by
    intro front
    induction b using List.reverseRecOn with
    | nil => rw [List.append_nil]
    | append_singleton b c ih =>
      rw [← List.append_assoc, List.rdropWhile_concat_pos _ _ _ (hb c (by simp)), ih fun d hd => hb d (by simp [hd])]
  rw [stripBy, hfront, stripBy, List.dropWhile_append]
  split
  · next hnil =>
    rw [List.isEmpty_iff] at hnil
    rw [hnil, List.dropWhile_eq_nil_iff.mpr hb]
  · rw [hback]

theorem stripBy_infix (p : Char → Bool) (text : List Char) : stripBy p text <:+: text :=
  (List.rdropWhile_prefix _ _).isInfix.trans (List.dropWhile_suffix _).isInfix

theorem infix_strip (text : List Char) : strip text <:+: text := stripBy_infix isSpace text

theorem infix_slice (text : List Char) (start stop : Nat) : slice text start stop <:+: text :=
  (List.take_prefix _ _).isInfix.trans (List.drop_suffix _ _).isInfix

end

/-! ## Where a needle stands -/

section

variable {needle : List Char}

/-- A needle stands on one side of a character that it does not have. -/
theorem infix_append_cons {c : Char} (hc : c ∉ needle) {a b : List Char}
    (h : needle <:+: a ++ c :: b) : needle <:+: a ∨ needle <:+: b := by
  by_cases hne : needle = []
  · rw [hne]
    exact .inl List.nil_infix
  · have hone := one_le_occurrences hne h
    rw [occurrences_append_cons hc hne] at hone
    by_contra hnone
    rw [not_or, ← find_eq_none, ← find_eq_none, ← occurrences_eq_zero hne, ← occurrences_eq_zero hne] at hnone
    omega

theorem suffix_of_append_cons {c : Char} (hc : c ∉ needle) {a b : List Char}
    (h : needle <:+ a ++ c :: b) : needle <:+ b := by
  rw [← List.reverse_prefix, List.reverse_append, List.reverse_cons, List.append_assoc] at h
  have hmirror : c ∉ needle.reverse := by simpa using hc
  rw [← List.reverse_prefix]
  exact prefix_of_append_cons hmirror h

/-- A needle stands behind a text without its first character. -/
theorem infix_of_append {d : Char} {tail a b : List Char} (hd : d ∉ a) (h : d :: tail <:+: a ++ b) :
    d :: tail <:+: b := by
  induction a with
  | nil => exact h
  | cons c a ih =>
    rw [List.cons_append, List.infix_cons_iff] at h
    obtain hstarts | hlater := h
    · obtain ⟨rfl, -⟩ := List.cons_prefix_cons.mp hstarts
      exact absurd List.mem_cons_self hd
    · exact ih (fun hmem => hd (List.mem_cons_of_mem _ hmem)) hlater

theorem infix_of_intercalate {c : Char} (hc : c ∉ needle) (hne : needle ≠ []) {lines : List (List Char)}
    (h : needle <:+: List.intercalate [c] lines) : ∃ line ∈ lines, needle <:+: line := by
  induction lines with
  | nil => exact absurd (List.infix_nil.mp h) hne
  | cons line lines ih =>
    cases lines with
    | nil => exact ⟨line, List.mem_cons_self, by simpa using h⟩
    | cons next lines =>
      have hjoin : List.intercalate [c] (line :: next :: lines) = line ++ c :: List.intercalate [c]
          (next :: lines) := by
        simp [List.intercalate]
      rw [hjoin] at h
      obtain hhere | hlater := infix_append_cons hc h
      · exact ⟨line, List.mem_cons_self, hhere⟩
      · obtain ⟨other, hother, hin⟩ := ih hlater
        exact ⟨other, List.mem_cons_of_mem _ hother, hin⟩

end

/-! ## Lines -/

theorem isSpace_of_isLineBreak {c : Char} (h : isLineBreak c = true) : isSpace c = true := by
  simp only [isLineBreak, Bool.or_eq_true, Bool.and_eq_true, decide_eq_true_eq] at h
  simp only [isSpace, Bool.or_eq_true, Bool.and_eq_true, decide_eq_true_eq]
  omega

/-- A line without breaks behind complete lines is the last one. -/
theorem linesFrom_last {front line : List Char} (hfront : ∀ c ∈ front.getLast?, isLineBreak c = true)
    (hplain : ∀ c ∈ line, isLineBreak c = false)
    (hne : line ≠ []) : ∀ acc, (linesFrom acc (front ++ line)).getLast? =
      some (if front = [] then acc ++ line else line) := by
  have hlast : ∀ acc, linesFrom acc line = [acc ++ line] := by
    intro acc
    have h := linesFrom_plain hplain acc []
    rw [List.append_nil] at h
    rw [h, linesFrom, if_neg (by simp [hne])]
  induction front with
  | nil =>
    intro acc
    rw [List.nil_append, hlast]
    rfl
  | cons c front ih =>
    intro acc
    rw [if_neg (List.cons_ne_nil _ _), List.cons_append, linesFrom]
    by_cases hnil : front = []
    · have hends : lineEnds c line = true := by
        have hbreak : isLineBreak c = true := hfront c (by rw [hnil]; rfl)
        cases line with
        | nil => exact absurd rfl hne
        | cons d line =>
          have hd : d ≠ '\n' := by
            rintro rfl
            exact absurd (hplain '\n' List.mem_cons_self) (by decide)
          simp [lineEnds, hbreak, hd]
      rw [hnil, List.nil_append, hends, if_pos rfl, hlast]
      rfl
    · have hrest := ih fun d hd => hfront d (by rwa [List.getLast?_cons_of_ne_nil hnil])
      have hnonempty : ∀ acc, linesFrom acc (front ++ line) ≠ [] := by
        intro acc hempty
        have := hrest acc
        rw [hempty] at this
        cases this
      split
      · rw [List.getLast?_cons_of_ne_nil (hnonempty _), hrest, if_neg hnil]
      · rw [hrest, if_neg hnil]

theorem splitlines_last {front line : List Char} (hfront : ∀ c ∈ front.getLast?, isLineBreak c = true)
    (hplain : ∀ c ∈ line, isLineBreak c = false) (hne : line ≠ []) :
    (splitlines (front ++ line)).getLast? = some line := by
  have h := linesFrom_last hfront hplain hne []
  rw [List.nil_append, ite_self] at h
  rw [splitlines, List.getLast?_map, splitlinesKeep, h, Option.map_some, dropLineBreak_last hplain]

/-- A text is its complete lines and a last line. -/
theorem exists_last_line {text : List Char} (hne : text ≠ []) (hlast : ∀ c ∈ text.getLast?, isLineBreak c = false) :
    ∃ front line, text = front ++ line ∧ (∀ c ∈ front.getLast?, isLineBreak c = true) ∧
    (∀ c ∈ line, isLineBreak c = false) ∧ line ≠ [] := by
  refine ⟨text.rdropWhile fun c => !isLineBreak c, text.rtakeWhile fun c => !isLineBreak c, ?_, ?_, ?_, ?_⟩
  · exact (List.rdropWhile_append_rtakeWhile).symm
  · intro c hc
    simpa using last_rdropWhile _ text c hc
  · intro c hc
    simpa using List.mem_rtakeWhile_imp hc
  · rw [ne_eq, List.rtakeWhile_eq_nil_iff]
    intro h
    have hbreak := h hne
    rw [hlast _ (List.getLast?_eq_some_getLast hne)] at hbreak
    exact hbreak rfl

theorem prefix_dropLineBreak (line : List Char) : dropLineBreak line <+: line := by
  rw [dropLineBreak]
  split
  · exact List.nil_prefix
  · next c rest h =>
    have hline : line = rest.reverse ++ [c] := by rw [← List.reverse_reverse line, h, List.reverse_cons]
    split
    · rw [hline]
      refine (List.reverse_prefix.mpr (List.tail_suffix rest)).trans (List.prefix_append _ _)
    · split
      · rw [hline]
        exact List.prefix_append _ _
      · exact List.prefix_refl _

theorem infix_of_mem_splitlines {text line : List Char} (h : line ∈ splitlines text) : line <:+: text := by
  obtain ⟨kept, hkept, rfl⟩ := List.mem_map.mp h
  refine (prefix_dropLineBreak kept).isInfix.trans ?_
  rw [← splitlinesKeep_flatten text]
  exact List.infix_of_mem_flatten hkept

theorem dropLineBreak_ne_nil {c : Char} (hc : isLineBreak c = false) (line : List Char) :
    dropLineBreak (c :: line) ≠ [] := by
  rw [dropLineBreak]
  split
  · next h => simp at h
  · next d rest h =>
    -- a line that is one break and nothing else does not start with another character
    have hfirst : c = (d :: rest).getLast (List.cons_ne_nil _ _) := by
      have hlast : (c :: line).reverse.getLast? = some c := by simp
      rw [h, List.getLast?_eq_some_getLast (List.cons_ne_nil _ _)] at hlast
      exact (Option.some.inj hlast).symm
    split
    · next hfeed =>
      intro hnil
      cases rest with
      | nil => cases hfeed.2
      | cons e rest =>
        obtain rfl : rest = [] := List.reverse_eq_nil_iff.mp hnil
        obtain rfl : e = '\r' := Option.some.inj hfeed.2
        obtain rfl : c = '\r' := hfirst
        exact absurd hc (by decide)
    · split
      · next hbreak =>
        intro hnil
        obtain rfl : rest = [] := List.reverse_eq_nil_iff.mp hnil
        obtain rfl : c = d := hfirst
        rw [hbreak] at hc
        cases hc
      · exact List.cons_ne_nil _ _

/-- The first line starts as the text does. -/
theorem splitlines_first {c : Char} (hc : isLineBreak c = false) (rest : List Char) :
    ∃ line lines, splitlines (c :: rest) = (c :: line) :: lines := by
  have hfrom : ∀ rest acc, ∃ line lines, linesFrom (c :: acc) rest = (c :: line) :: lines := by
    intro rest
    induction rest with
    | nil => exact fun acc => ⟨acc, [], by rw [linesFrom, if_neg (List.cons_ne_nil _ _)]⟩
    | cons d rest ih =>
      intro acc
      rw [linesFrom]
      split
      · exact ⟨acc ++ [d], _, rfl⟩
      · exact ih (acc ++ [d])
  obtain ⟨line, lines, hlines⟩ := hfrom rest []
  have hkeep : splitlinesKeep (c :: rest) = (c :: line) :: lines := by
    rw [splitlinesKeep, linesFrom, if_neg (by simp [lineEnds, hc])]
    exact hlines
  obtain ⟨z, hz⟩ := prefix_dropLineBreak (c :: line)
  cases hdrop : dropLineBreak (c :: line) with
  | cons d line' =>
    rw [hdrop] at hz
    obtain ⟨rfl, -⟩ := List.cons_eq_cons.mp hz
    exact ⟨line', lines.map dropLineBreak, by rw [splitlines, hkeep, List.map_cons, hdrop]⟩
  | nil => exact absurd hdrop (dropLineBreak_ne_nil hc line)

end PyText
