import LcmX.SearchQuery

/-!
# The phrases of a query

A sanitised query is laid out from the words before the first closed phrase and, for each
closed phrase, its content, the word that touches it and the words behind.
-/
namespace SearchQuery

open Regex PyText

@[simp] theorem isSpace_blank : isSpace ' ' = true := rfl

@[simp] theorem isSpace_quoteMark : isSpace quoteMark = false := rfl

/-! ## Spaces -/

/-- Words with a blank before each. -/
def spaced (words : List Text) : Text := words.flatMap (' ' :: ·)

/-- A text with one blank for each run of spaces, where `gap` tells whether spaces stood before it. -/
def spacedFrom : Bool → Text → Text
  | _, [] => []
  | gap, c :: rest => if isSpace c then spacedFrom true rest
        else if gap then ' ' :: c :: spacedFrom false rest else c :: spacedFrom false rest

/-- Whether a space stands at the end. -/
def gapAfter (gap : Bool) (text : Text) : Bool := text.getLast?.elim gap isSpace

theorem gapAfter_cons (gap : Bool) (c : Char) (rest : Text) : gapAfter gap (c :: rest) = gapAfter (isSpace c) rest := by
  cases rest with
  | nil => rfl
  | cons d rest => rw [gapAfter, gapAfter, List.getLast?_cons_cons, List.getLast?_cons,
        Option.elim_some, Option.elim_some]

theorem gapAfter_append (gap : Bool) (a b : Text) : gapAfter gap (a ++ b) = gapAfter (gapAfter gap a) b := by
  induction a generalizing gap with
  | nil => rfl
  | cons c a ih => rw [List.cons_append, gapAfter_cons, gapAfter_cons, ih]

theorem spacedFrom_append (a b : Text) :
    ∀ gap, spacedFrom gap (a ++ b) = spacedFrom gap a ++ spacedFrom (gapAfter gap a) b := by
  induction a with
  | nil => exact fun gap => rfl
  | cons c a ih =>
    intro gap
    rw [List.cons_append, spacedFrom, spacedFrom, gapAfter_cons]
    cases hc : isSpace c with
    | true => simp only [if_true, ih true]
    | false => cases gap <;> simp [ih false]

theorem spaced_wordsFrom (text : Text) : ∀ word, spaced (wordsFrom word text) =
    if word = [] then spacedFrom true text else ' ' :: (word ++ spacedFrom false text) := by
  induction text with
  | nil =>
    intro word
    rw [wordsFrom]
    split
    · rfl
    · simp [spaced, spacedFrom]
  | cons c rest ih =>
    intro word
    rw [wordsFrom, spacedFrom, spacedFrom]
    cases hc : isSpace c with
    | true =>
      have hrest := ih []
      rw [if_pos rfl] at hrest
      by_cases hword : word = []
      · simp [hword, hrest]
      · simp only [if_true, if_neg hword]
        rw [spaced, List.flatMap_cons, ← spaced, hrest, List.cons_append]
    | false =>
      have hrest := ih (word ++ [c])
      rw [if_neg (by simp)] at hrest
      by_cases hword : word = []
      · subst hword
        simpa using hrest
      · simp [hrest, hword]

theorem spaced_split (text : Text) : spaced (split text) = spacedFrom true text := spaced_wordsFrom text []

/-- The word that touches what stands before a text. -/
def attached (text : Text) : Text := text.takeWhile fun c => !isSpace c

def detached (text : Text) : List Text := split (text.dropWhile fun c => !isSpace c)

theorem spacedFrom_false (text : Text) : spacedFrom false text = attached text ++ spaced (detached text) := by
  rw [detached, spaced_split, attached]
  induction text with
  | nil => rfl
  | cons c rest ih =>
    rw [spacedFrom]
    cases hc : isSpace c with
    | true => simp [hc, spacedFrom]
    | false => simp [hc, ih]

theorem intercalate_eq_tail (words : List Text) : [' '].intercalate words = (spaced words).tail := by
  cases words with
  | nil => rfl
  | cons w words =>
    rw [spaced, List.flatMap_cons, List.cons_append, List.tail_cons]
    induction words generalizing w with
    | nil => simp
    | cons v words ih => simp [ih]

theorem mem_spacedFrom {c : Char} {text : Text} : ∀ {gap : Bool}, c ∈ spacedFrom gap text → c = ' ' ∨ c ∈ text := by
  induction text with
  | nil =>
    intro gap h
    cases h
  | cons d rest ih =>
    intro gap h
    rw [spacedFrom] at h
    split at h
    · exact (ih h).imp_right (List.mem_cons_of_mem d)
    · split at h
      · obtain rfl | h := List.mem_cons.mp h
        · exact .inl rfl
        · obtain rfl | h := List.mem_cons.mp h
          · exact .inr List.mem_cons_self
          · exact (ih h).imp_right (List.mem_cons_of_mem d)
      · obtain rfl | h := List.mem_cons.mp h
        · exact .inr List.mem_cons_self
        · exact (ih h).imp_right (List.mem_cons_of_mem d)

/-- A word of characters that are no spaces. -/
structure IsWord (text : Text) (word : Text) : Prop where
  nonempty : word ≠ []
  chars : ∀ c ∈ word, c ∈ text ∧ isSpace c = false

theorem wordsFrom_isWord {text all : Text} :
    ∀ {word : Text}, (∀ c ∈ word, c ∈ all ∧ isSpace c = false) → (∀ c ∈ text, c ∈ all) →
    ∀ w ∈ wordsFrom word text, IsWord all w := by
  induction text with
  | nil =>
    intro word hword _ w hw
    rw [wordsFrom] at hw
    split at hw
    · cases hw
    · rename_i hne
      obtain rfl := List.mem_singleton.mp hw
      exact ⟨hne, hword⟩
  | cons c rest ih =>
    intro word hword htext w hw
    have hrest : ∀ d ∈ rest, d ∈ all := fun d hd => htext d (List.mem_cons_of_mem c hd)
    rw [wordsFrom] at hw
    split at hw
    · split at hw
      · exact ih (fun d hd => absurd hd List.not_mem_nil) hrest w hw
      · rename_i hne
        obtain rfl | hw := List.mem_cons.mp hw
        · exact ⟨hne, hword⟩
        · exact ih (fun d hd => absurd hd List.not_mem_nil) hrest w hw
    · rename_i hc
      refine ih (fun d hd => ?_) hrest w hw
      obtain hd | hd := List.mem_append.mp hd
      · exact hword d hd
      · obtain rfl := List.mem_singleton.mp hd
        exact ⟨htext d List.mem_cons_self, by simpa using hc⟩

theorem split_isWord {text w : Text} (hw : w ∈ split text) : IsWord text w :=
  wordsFrom_isWord (fun _ h => absurd h List.not_mem_nil) (fun _ h => h) w hw

theorem detached_isWord {text w : Text} (hw : w ∈ detached text) : IsWord text w := by
  obtain ⟨hne, hchars⟩ := split_isWord hw
  exact ⟨hne, fun c hc => ⟨(List.dropWhile_suffix _).subset (hchars c hc).1, (hchars c hc).2⟩⟩

theorem attached_chars {text : Text} {c : Char} (hc : c ∈ attached text) : c ∈ text ∧ isSpace c = false :=
  ⟨(List.takeWhile_prefix _).subset hc, by simpa using List.mem_takeWhile_imp hc⟩

/-! ## Phrases -/

/-- The text up to the next closed phrase, and each closed phrase with the text behind it. A quote
that is left open reads as a space. -/
def scan : Option Text → Text → Text × List (Text × Text)
  | none, [] => ([], [])
  | some buffer, [] => (' ' :: buffer, [])
  | none, c :: rest => if c = quoteMark then scan (some []) rest else (c :: (scan none rest).1, (scan none rest).2)
  | some buffer, c :: rest =>
    if c = quoteMark then ([], (buffer, (scan none rest).1) :: (scan none rest).2) else scan (some (buffer ++ [c])) rest

structure Phrase where
  content : Text
  /-- The word that touches the closing quote. -/
  attached : Text
  words : List Text
  deriving DecidableEq, Repr

/-- The content of a phrase, with its runs of spaces made one. -/
def squeeze (content : Text) : Text := spacedFrom false content ++ if gapAfter false content then [' '] else []

def phraseOf (replace : Char → Char) (p : Text × Text) : Phrase :=
  ⟨squeeze p.1, SearchQuery.attached (p.2.map replace), detached (p.2.map replace)⟩

/-- The words before the first closed phrase. -/
def firstWords (replace : Char → Char) (query : Text) : List Text := split ((scan none query).1.map replace)

def phrases (replace : Char → Char) (query : Text) : List Phrase := (scan none query).2.map (phraseOf replace)

def Phrase.text (p : Phrase) : Text := ' ' :: quoteMark :: (p.content ++ quoteMark :: (p.attached ++ spaced p.words))

/-- The words and the phrases, with a blank before each that touches no other. -/
def layout (first : List Text) (phrases : List Phrase) : Text := spaced first ++ phrases.flatMap Phrase.text

section

variable {replace : Char → Char}

theorem scan_open (query : Text) : ∀ buffer, (scan (some buffer) query).1 = [] ∨ ∃ t,
    (scan (some buffer) query).1 = ' ' :: t := by
  induction query with
  | nil => exact fun buffer => .inr ⟨buffer, rfl⟩
  | cons c rest ih =>
    intro buffer
    rw [scan]
    split
    · exact .inl rfl
    · exact ih _

/-- What the walk adds from a state on. -/
theorem spaced_walk (hblank : replace ' ' = ' ') (query : Text) :
    ∀ w : Walk, (w.inQuote = true → gapAfter true w.result = true) →
    spacedFrom true ((query.foldl (Walk.step replace) w).text replace) =
      spacedFrom true w.result ++
        (spacedFrom (gapAfter true w.result)
        ((scan (if w.inQuote then some w.quoteBuffer else none) query).1.map replace) ++
          (scan (if w.inQuote then some w.quoteBuffer else none) query).2.flatMap
          fun p => (phraseOf replace p).text) := by
  induction query with
  | nil =>
    rintro ⟨result, buffer, inQuote⟩ hquote
    cases inQuote with
    | false => simp [Walk.text, scan, spacedFrom]
    | true =>
      have hgap : gapAfter true result = true := hquote rfl
      by_cases hbuffer : buffer = []
      · simp [Walk.text, scan, spacedFrom, hbuffer, hblank]
      · simp [Walk.text, scan, spacedFrom, hbuffer, hblank, spacedFrom_append, hgap]
  | cons c rest ih =>
    rintro ⟨result, buffer, inQuote⟩ hquote
    rw [List.foldl_cons, Walk.step]
    cases inQuote with
    | true =>
      have hgap : gapAfter true result = true := hquote rfl
      by_cases hc : c = quoteMark
      · -- a phrase is closed
        simp only [hc, if_true]
        rw [ih _ (fun h => Bool.noConfusion h)]
        have hend : gapAfter true (result ++ quoteMark :: (buffer ++ [quoteMark])) = false := by
          rw [gapAfter_append, gapAfter_cons, gapAfter_append, gapAfter_cons]
          rfl
        have hphrase : spacedFrom true (quoteMark :: (buffer ++ [quoteMark])) =
            ' ' :: quoteMark :: (squeeze buffer ++ [quoteMark]) := by
          rw [spacedFrom, isSpace_quoteMark, if_neg (by decide), if_pos rfl, spacedFrom_append, squeeze]
          cases gapAfter false buffer <;> simp [spacedFrom]
        have hscan : scan (some buffer) (quoteMark :: rest) =
            ([], (buffer, (scan none rest).1) :: (scan none rest).2) := by rw [scan, if_pos rfl]
        simp only [Bool.false_eq_true, if_false, hend, hscan, List.flatMap_cons]
        rw [spacedFrom_append, hgap, hphrase, spacedFrom_false, List.map_nil, spacedFrom, phraseOf, Phrase.text]
        simp
      · simp only [hc, if_false, if_true]
        rw [ih _ (fun _ => hgap)]
        simp [scan, hc]
    | false =>
      by_cases hc : c = quoteMark
      · -- a phrase is opened, behind a space
        simp only [hc, if_true]
        have hopen : gapAfter true
            (result ++ (if result.getLast?.any fun last => !isSpace last then [' '] else [])) = true := by
          cases hlast : result.getLast? with
          | none => simp [gapAfter, hlast]
          | some last => cases hspace : isSpace last <;> simp [gapAfter, hlast, hspace]
        have hsame : spacedFrom true
            (result ++ (if result.getLast?.any fun last => !isSpace last then [' '] else [])) =
            spacedFrom true result := by
          rw [spacedFrom_append]
          split <;> simp [spacedFrom]
        rw [if_neg (by decide), ih _ (fun _ => hopen), hopen, hsame]
        have hscan : scan none (quoteMark :: rest) = scan (some []) rest := by rw [scan, if_pos rfl]
        simp only [if_true, Bool.false_eq_true, if_false, hscan]
        rcases scan_open rest [] with h | ⟨t, h⟩
        · rw [h]
          rfl
        · rw [h, List.map_cons, hblank, spacedFrom, spacedFrom, isSpace_blank, if_pos rfl, if_pos rfl]
      · simp only [hc, if_false]
        rw [if_neg (by decide), ih _ (fun h => Bool.noConfusion h)]
        have hscan : scan none (c :: rest) = (c :: (scan none rest).1, (scan none rest).2) := by rw [scan, if_neg hc]
        simp only [Bool.false_eq_true, if_false, hscan, List.map_cons]
        have hcons : replace c :: (scan none rest).1.map replace = [replace c] ++ (scan none rest).1.map replace := rfl
        rw [hcons, spacedFrom_append [replace c], spacedFrom_append result, gapAfter_append]
        simp only [List.append_assoc]

/-- A sanitised query is the layout of its words and phrases, without the first blank. -/
theorem sanitizeQuery_eq (hblank : replace ' ' = ' ') (query : Text) :
    sanitizeQuery query replace = (layout (firstWords replace query) (phrases replace query)).tail := by
  have hwalk := spaced_walk hblank query ⟨[], [], false⟩ (fun h => Bool.noConfusion h)
  have hlayout : layout (firstWords replace query) (phrases replace query) =
      spaced (split ((query.foldl (Walk.step replace) ⟨[], [], false⟩).text replace)) := by
    rw [spaced_split, hwalk, layout, firstWords, phrases, spaced_split, List.flatMap_map]
    rfl
  rw [hlayout, ← intercalate_eq_tail, sanitizeQuery]
  split
  · rename_i hnil
    rw [hnil]
    rfl
  · rfl

end

/-! ## What the words consist of -/

/-- A character that stands outside of phrases. -/
def Mapped (replace : Char → Char) (c : Char) : Prop := isSpace c = false ∧ ∃ d, d ≠ quoteMark ∧ c = replace d

/-- Neither the contents nor the words hold a quote, and the words no space. -/
structure Phrase.Sound (P : Char → Prop) (p : Phrase) : Prop where
  content : quoteMark ∉ p.content
  attached : ∀ c ∈ p.attached, P c
  words : ∀ w ∈ p.words, w ≠ [] ∧ ∀ c ∈ w, P c

/-- No phrase that is scanned holds a quote mark. -/
theorem scan_sound (query : Text) : ∀ buffer : Option Text, (∀ b ∈ buffer, quoteMark ∉ b) →
    quoteMark ∉ (scan buffer query).1 ∧ ∀ p ∈ (scan buffer query).2, quoteMark ∉ p.1 ∧ quoteMark ∉ p.2 := by
  induction query with
  | nil =>
    intro buffer hbuffer
    cases buffer with
    | none => exact ⟨List.not_mem_nil, fun p hp => absurd hp List.not_mem_nil⟩
    | some b =>
      refine ⟨fun h => ?_, fun p hp => absurd hp List.not_mem_nil⟩
      obtain h | h := List.mem_cons.mp h
      · exact absurd h (by decide)
      · exact hbuffer b rfl h
  | cons c rest ih =>
    intro buffer hbuffer
    have hnone := ih none (fun b hb => nomatch hb)
    cases buffer with
    | none =>
      rw [scan]
      split
      · refine ih (some []) fun b hb => ?_
        obtain rfl := Option.some.inj hb
        exact List.not_mem_nil
      · rename_i hc
        exact ⟨List.not_mem_cons_of_ne_of_not_mem (fun h => hc h.symm) hnone.1, hnone.2⟩
    | some b =>
      rw [scan]
      split
      · refine ⟨List.not_mem_nil, fun p hp => ?_⟩
        obtain rfl | hp := List.mem_cons.mp hp
        · exact ⟨hbuffer b rfl, hnone.1⟩
        · exact hnone.2 p hp
      · rename_i hc
        refine ih (some (b ++ [c])) fun b' hb' => ?_
        obtain rfl := Option.some.inj hb'
        intro h
        obtain h | h := List.mem_append.mp h
        · exact hbuffer b rfl h
        · exact hc (List.mem_singleton.mp h).symm

theorem mapped_of_mem {replace : Char → Char} {gap : Text} (hgap : quoteMark ∉ gap) {c : Char}
    (h : c ∈ gap.map replace ∧ isSpace c = false) :
    Mapped replace c := by
  obtain ⟨d, hd, rfl⟩ := List.mem_map.mp h.1
  exact ⟨h.2, d, fun he => hgap (he ▸ hd), rfl⟩

theorem firstWords_sound (replace : Char → Char) (query : Text) : ∀ w ∈ firstWords replace query,
    w ≠ [] ∧ ∀ c ∈ w, Mapped replace c := by
  intro w hw
  obtain ⟨hne, hchars⟩ := split_isWord hw
  have hgap := (scan_sound query none (fun b hb => nomatch hb)).1
  exact ⟨hne, fun c hc => mapped_of_mem hgap (hchars c hc)⟩

theorem phrases_sound (replace : Char → Char) (query : Text) : ∀ p ∈ phrases replace query,
    p.Sound (Mapped replace) := by
  intro p hp
  obtain ⟨⟨content, gap⟩, hin, rfl⟩ := List.mem_map.mp hp
  obtain ⟨hcontent, hgap⟩ := (scan_sound query none (fun b hb => nomatch hb)).2 _ hin
  refine ⟨fun h => ?_, fun c hc => mapped_of_mem hgap (attached_chars hc), fun w hw => ?_⟩
  · obtain h | h := List.mem_append.mp h
    · obtain h | h := mem_spacedFrom h
      · exact absurd h (by decide)
      · exact hcontent h
    · split at h
      · exact absurd (List.mem_singleton.mp h) (by decide)
      · cases h
  · obtain ⟨hne, hchars⟩ := detached_isWord hw
    exact ⟨hne, fun c hc => mapped_of_mem hgap (hchars c hc)⟩

theorem mapped_ne_quote {replace : Char → Char} (hquote : ∀ d, d ≠ quoteMark → replace d ≠ quoteMark)
    {c : Char} (h : Mapped replace c) :
    c ≠ quoteMark := by
  obtain ⟨-, d, hd, rfl⟩ := h
  exact hquote d hd

/-! ## The phrases that the pattern finds -/

section

variable {fuel : Nat} {behind rest : Text}

theorem run_quotedPhraseRe (x : Text) : run quotedPhraseRe ⟨behind, quoteMark :: x, []⟩ =
    ((run (plus (.char (· ≠ quoteMark))) ⟨quoteMark :: behind, x, []⟩).map fun t =>
      { t with groups := (1, (⟨quoteMark :: behind, x, []⟩ : State).pos, t.pos) :: t.groups }).flatMap
      fun t => t.next (· = quoteMark) := by
  have hfirst : (⟨behind, quoteMark :: x, []⟩ : State).next (fun c => decide (c = quoteMark)) =
      [⟨quoteMark :: behind, x, []⟩] := rfl
  rw [quotedPhraseRe, run, run, hfirst, List.flatMap_cons, List.flatMap_nil, List.append_nil, run, run]
  rfl

theorem matchAt_phrase {content : Text} (hne : content ≠ []) (hcontent : quoteMark ∉ content) :
    ∃ t, matchAt quotedPhraseRe behind (quoteMark :: (content ++ quoteMark :: rest)) = some t ∧
      Reaches ⟨behind, quoteMark :: (content ++ quoteMark :: rest), []⟩ (quoteMark :: (content ++ [quoteMark])) t := by
  have hplain : ∀ c ∈ content, decide (c ≠ quoteMark) = true := fun c hc => decide_eq_true fun he => hcontent (he ▸ hc)
  have hstop : ∀ c ∈ (quoteMark :: rest).head?, decide (c ≠ quoteMark) = false := by
    intro c hc
    obtain rfl := Option.some.inj hc
    exact decide_eq_false (not_not.mpr rfl)
  obtain ⟨more, hmore⟩ := run_greedy_first hstop [] content (quoteMark :: behind) hplain
    (Nat.one_le_iff_ne_zero.mpr (by simpa using hne))
  refine ⟨⟨quoteMark :: (content.reverse ++ quoteMark :: behind), rest,
    [(1, behind.length + 1, (content.reverse ++ quoteMark :: behind).length)]⟩,
    ?_, ?_, ?_⟩
  · rw [matchAt, run_quotedPhraseRe, plus, hmore]
    rfl
  · simp
  · simp

/-- No phrase starts at a character that is no quote, at one that a quote follows, or at one that is the last quote. -/
theorem matchAt_none_of_ne {c : Char} (hc : c ≠ quoteMark) : matchAt quotedPhraseRe behind (c :: rest) = none := by
  have hfirst : (⟨behind, c :: rest, []⟩ : State).next (fun c => decide (c = quoteMark)) = [] := by
    simp [State.next, hc]
  rw [matchAt, quotedPhraseRe, run, run, hfirst]
  rfl

theorem matchAt_none_of_empty : matchAt quotedPhraseRe behind (quoteMark :: quoteMark :: rest) = none := by
  rw [matchAt, run_quotedPhraseRe, plus, run_greedy_cons]
  simp

theorem matchAt_none_of_last (hrest : quoteMark ∉ rest) : matchAt quotedPhraseRe behind (quoteMark :: rest) = none := by
  rw [matchAt, run_quotedPhraseRe, List.head?_eq_none_iff, List.flatMap_eq_nil_iff]
  intro t ht
  obtain ⟨s, hs, rfl⟩ := List.mem_map.mp ht
  obtain ⟨w, hw⟩ := run_reaches _ hs
  have hahead : rest = w ++ s.ahead := hw.2
  cases hnext : s.ahead with
  | nil => simp [State.next]
  | cons c more =>
    have hc : c ≠ quoteMark := by
      rintro rfl
      exact hrest (by rw [hahead, hnext]; simp)
    simp [State.next, hc]

theorem pieces_of_none {c : Char} (h : matchAt quotedPhraseRe behind (c :: rest) = none) :
    pieces quotedPhraseRe (fuel + 1) behind (c :: rest) = .inl c :: pieces quotedPhraseRe fuel (c :: behind) rest := by
  rw [pieces_succ, h, Option.filter_none]

theorem pieces_phrase {content : Text} (hne : content ≠ []) (hcontent : quoteMark ∉ content) :
    ∃ m behind', pieces quotedPhraseRe (fuel + 1) behind (quoteMark :: (content ++ quoteMark :: rest)) =
      .inr m :: pieces quotedPhraseRe fuel behind' rest ∧ m.text = quoteMark :: (content ++ [quoteMark]) := by
  obtain ⟨t, ht, hreaches⟩ := @matchAt_phrase behind rest content hne hcontent
  have hahead : t.ahead = rest := by
    have h := hreaches.2
    simpa using h.symm
  have hless : t.ahead.length < (quoteMark :: (content ++ quoteMark :: rest)).length := by
    rw [hahead]
    simp
    omega
  refine ⟨found ⟨behind, quoteMark :: (content ++ quoteMark :: rest), []⟩ t, t.behind, ?_, hreaches.found_text⟩
  rw [pieces_succ, ht, Option.filter_some, if_pos (decide_eq_true hless)]
  simp only [hahead]

end

end SearchQuery
