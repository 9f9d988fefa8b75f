import LcmX.SearchQueryOperators

/-!
# The grammar of a sanitised query

The index reads double-quoted strings, in which two quotes are one, spaces and barewords.
-/
namespace SearchQuery

open Regex PyText

/-! ## Reading a query as the index does -/

inductive Token where
  | string (content : Text)
  | bareword (word : Text)
  deriving DecidableEq, Repr

def Token.word : Token → Option Text
  | .string _ => none
  | .bareword w => some w

inductive LexState where
  | gap
  | word (read : Text)
  | inside (read : Text)
  /-- A quote was read inside of a string. -/
  | closing (read : Text)

def isIndexSpace (c : Char) : Bool := c = ' ' || c.toNat = 9 || c.toNat = 10 || c.toNat = 13

/-- The tokens from a state on; a string that is not terminated gives none. -/
def lexFrom : LexState → Text → Option (List Token)
  | .gap, [] => some []
  | .word w, [] => some [.bareword w]
  | .inside _, [] => none
  | .closing s, [] => some [.string s]
  | .gap, c :: rest =>
    if c = quoteMark then lexFrom (.inside []) rest else if isIndexSpace c then lexFrom .gap rest
    else lexFrom (.word [c]) rest
  | .word w, c :: rest =>
    if c = quoteMark then (lexFrom (.inside []) rest).map (.bareword w :: ·)
    else if isIndexSpace c then (lexFrom .gap rest).map (.bareword w :: ·)
    else lexFrom (.word (w ++ [c])) rest
  | .inside s, c :: rest => if c = quoteMark then lexFrom (.closing s) rest else lexFrom (.inside (s ++ [c])) rest
  | .closing s, c :: rest =>
    if c = quoteMark then lexFrom (.inside (s ++ [quoteMark])) rest
    else if isIndexSpace c then (lexFrom .gap rest).map (.string s :: ·)
    else (lexFrom (.word [c]) rest).map (.string s :: ·)

def lex (query : Text) : Option (List Token) := lexFrom .gap query

/-- An operator, where a bareword ends at a star. -/
def IsOperator : Option Text → Prop
  | none => False
  | some w => w.takeWhile (· ≠ '*') ∈ booleanOperators

def IsInfix : Option Text → Prop
  | none => False
  | some w => w ∈ infixOperators

/-- Each operator is an infix one and stands between two others that are no operators. -/
def WellPlaced {α : Type} (isOperator isInfix : α → Prop) (l : List α) : Prop :=
  ∀ before x after, l = before ++ x :: after → isOperator x →
    isInfix x ∧ (∃ a, before.getLast? = some a ∧ ¬ isOperator a) ∧ ∃ b, after.head? = some b ∧ ¬ isOperator b

def SafeChar (u : Unicode) (c : Char) : Prop := u.isAlnum c = true ∨ u.isMark c = true

/-- What the default reading promises. -/
def DefaultSafe (u : Unicode) (result : Text) : Prop :=
  ∃ tokens, lex result = some tokens ∧ ∀ token ∈ tokens, ∀ w, token.word = some w →
    (∀ c ∈ w, SafeChar u c) ∧ w ∉ booleanOperators

/-- What the reading for agents promises. -/
def AgentSafe (u : Unicode) (result : Text) : Prop :=
  ∃ tokens, lex result = some tokens ∧
    (∀ token ∈ tokens, ∀ w, token.word = some w → (∀ c ∈ w, c ≠ '*' → SafeChar u c) ∧
      ('*' ∈ w → ∃ stem, w = stem ++ ['*'] ∧ '*' ∉ stem ∧ 2 ≤ stem.countP u.isAlnum)) ∧
    WellPlaced (fun token : Token => IsOperator token.word) (fun token => IsInfix token.word) tokens

/-- What the tables say of ASCII. -/
structure Unicode.Ascii (u : Unicode) : Prop where
  alnum : ∀ c : Char, c.toNat < 128 → u.isAlnum c = (c.isAlpha || c.isDigit)
  mark : ∀ c : Char, c.toNat < 128 → u.isMark c = false

/-! ## The tokens of a layout -/

/-- The text is read, and its tokens are strings and barewords in this order. -/
def Lexes (text : Text) (kinds : List (Option Text)) : Prop :=
  ∃ tokens, lexFrom .gap text = some tokens ∧ tokens.map Token.word = kinds

/-- Nothing touches what stands before. -/
def Apart (text : Text) : Prop := ∀ c ∈ text.head?, c = ' '

section

variable {text : Text} {kinds : List (Option Text)}

theorem plain_not_indexSpace {c : Char} (h : Plain c) : isIndexSpace c = false := by
  obtain ⟨hspace, -⟩ := h
  simp only [isSpace, isIndexSpace, Bool.or_eq_false_iff, Bool.and_eq_false_iff, decide_eq_false_iff_not] at hspace ⊢
  have hblank : c ≠ ' ' := by
    rintro rfl
    revert hspace
    decide
  exact ⟨⟨⟨hblank, by omega⟩, by omega⟩, by omega⟩

theorem lexFrom_word (w : Text) : ∀ v, (∀ c ∈ w, Plain c) → lexFrom (.word v)
    (w ++ text) = lexFrom (.word (v ++ w)) text := by
  induction w with
  | nil =>
    intro v _
    rw [List.nil_append, List.append_nil]
  | cons c w ih =>
    intro v hw
    obtain ⟨hc, hrest⟩ := List.forall_mem_cons.mp hw
    rw [List.cons_append, lexFrom, if_neg hc.2, plain_not_indexSpace hc, if_neg (by decide),
      ih _ hrest, List.append_assoc,
      List.singleton_append]

theorem lexFrom_inside (s : Text) : ∀ v, quoteMark ∉ s → lexFrom (.inside v)
    (s ++ quoteMark :: text) = lexFrom (.closing (v ++ s)) text := by
  induction s with
  | nil =>
    intro v _
    rw [List.nil_append, List.append_nil, lexFrom, if_pos rfl]
  | cons c s ih =>
    intro v hs
    have hc : c ≠ quoteMark := fun he => hs (he ▸ List.mem_cons_self)
    rw [List.cons_append, lexFrom, if_neg hc, ih _ (fun h => hs (List.mem_cons_of_mem _ h)),
      List.append_assoc, List.singleton_append]

theorem lexFrom_word_apart (hapart : Apart text) (w : Text) :
    lexFrom (.word w) text = (lexFrom .gap text).map (.bareword w :: ·) := by
  cases text with
  | nil => rfl
  | cons c rest =>
    obtain rfl := hapart c rfl
    rfl

theorem lexFrom_closing_apart (hapart : Apart text) (s : Text) :
    lexFrom (.closing s) text = (lexFrom .gap text).map (.string s :: ·) := by
  cases text with
  | nil => rfl
  | cons c rest =>
    obtain rfl := hapart c rfl
    rfl

theorem lexFrom_gap_word {w : Text} (hne : w ≠ []) (hw : ∀ c ∈ w, Plain c) :
    lexFrom .gap (w ++ text) = lexFrom (.word w) text := by
  obtain ⟨c, rest, rfl⟩ := List.exists_cons_of_ne_nil hne
  obtain ⟨hc, hrest⟩ := List.forall_mem_cons.mp hw
  rw [List.cons_append, lexFrom, if_neg hc.2, plain_not_indexSpace hc, if_neg (by decide), lexFrom_word rest _ hrest]
  rfl

theorem lexFrom_closing_word {w s : Text} (hne : w ≠ []) (hw : ∀ c ∈ w, Plain c) :
    lexFrom (.closing s) (w ++ text) = (lexFrom (.word w) text).map (.string s :: ·) := by
  obtain ⟨c, rest, rfl⟩ := List.exists_cons_of_ne_nil hne
  obtain ⟨hc, hrest⟩ := List.forall_mem_cons.mp hw
  rw [List.cons_append, lexFrom, if_neg hc.2, plain_not_indexSpace hc, if_neg (by decide), lexFrom_word rest _ hrest]
  rfl

theorem Lexes.word (h : Lexes text kinds) (hapart : Apart text) {w : Text} (hne : w ≠ []) (hw : ∀ c ∈ w, Plain c) :
    Lexes (' ' :: (w ++ text)) (some w :: kinds) := by
  obtain ⟨tokens, htokens, rfl⟩ := h
  refine ⟨.bareword w :: tokens, ?_, rfl⟩
  have hblank : lexFrom .gap (' ' :: (w ++ text)) = lexFrom .gap (w ++ text) := rfl
  rw [hblank, lexFrom_gap_word hne hw, lexFrom_word_apart hapart, htokens]
  rfl

/-- A phrase with the word that touches it. -/
theorem Lexes.phrase (h : Lexes text kinds) (hapart : Apart text) {content attached : Text}
    (hcontent : quoteMark ∉ content)
    (hattached : ∀ c ∈ attached, Plain c) :
    Lexes (' ' :: quoteMark :: (content ++ quoteMark :: (attached ++ text)))
    (none :: ((if attached = [] then [] else [some attached]) ++ kinds)) := by
  obtain ⟨tokens, htokens, rfl⟩ := h
  have hopen : lexFrom .gap (' ' :: quoteMark :: (content ++ quoteMark :: (attached ++ text))) =
      lexFrom (.closing content) (attached ++ text) := by
    have hblank : lexFrom .gap (' ' :: quoteMark :: (content ++ quoteMark :: (attached ++ text))) =
        lexFrom (.inside []) (content ++ quoteMark :: (attached ++ text)) := rfl
    rw [hblank, lexFrom_inside content _ hcontent]
    rfl
  by_cases hempty : attached = []
  · refine ⟨.string content :: tokens, ?_, by simp [hempty, Token.word]⟩
    rw [hopen, hempty, List.nil_append, lexFrom_closing_apart hapart, htokens]
    rfl
  · refine ⟨.string content :: .bareword attached :: tokens, ?_, by simp [hempty, Token.word]⟩
    rw [hopen, lexFrom_closing_word hempty hattached, lexFrom_word_apart hapart, htokens]
    rfl

theorem apart_spaced (words : List Text) (hapart : Apart text) : Apart (spaced words ++ text) := by
  cases words with
  | nil => exact hapart
  | cons w words =>
    intro c hc
    exact (Option.some.inj hc).symm

theorem Lexes.spaced {words : List Text} (hwords : ∀ w ∈ words, w ≠ [] ∧ ∀ c ∈ w, Plain c)
    (h : Lexes text kinds) (hapart : Apart text) :
    Lexes (spaced words ++ text) (words.map some ++ kinds) := by
  induction words with
  | nil => exact h
  | cons w words ih =>
    obtain ⟨hw, hrest⟩ := List.forall_mem_cons.mp hwords
    have hword := (ih hrest).word (apart_spaced words hapart) hw.1 hw.2
    simpa [SearchQuery.spaced] using hword

end

/-- A phrase, the word that touches it and the words behind. -/
def Phrase.kinds (p : Phrase) : List (Option Text) :=
  none :: ((if p.attached = [] then [] else [some p.attached]) ++ p.words.map some)

theorem apart_phrases (phrases : List Phrase) : Apart (phrases.flatMap Phrase.text) := by
  cases phrases with
  | nil =>
    intro c hc
    cases hc
  | cons p phrases =>
    intro c hc
    exact (Option.some.inj hc).symm

theorem lexes_phrases {phrases : List Phrase} (h : ∀ p ∈ phrases, p.Sound Plain) :
    Lexes (phrases.flatMap Phrase.text) (phrases.flatMap Phrase.kinds) := by
  induction phrases with
  | nil => exact ⟨[], rfl, rfl⟩
  | cons p phrases ih =>
    obtain ⟨hp, hrest⟩ := List.forall_mem_cons.mp h
    have hwords := Lexes.spaced hp.words (ih hrest) (apart_phrases phrases)
    have hphrase := hwords.phrase (apart_spaced p.words (apart_phrases phrases)) hp.content hp.attached
    simpa [Phrase.text, Phrase.kinds] using hphrase

/-- The first blank says nothing. -/
theorem Lexes.tail {text : Text} {kinds : List (Option Text)} (h : Lexes text kinds)
    (hapart : Apart text) : Lexes text.tail kinds := by
  cases text with
  | nil => exact h
  | cons c rest =>
    obtain rfl := hapart c rfl
    exact h

theorem lexes_layout {first : List Text} {phrases : List Phrase} (hfirst : ∀ w ∈ first, w ≠ [] ∧ ∀ c ∈ w, Plain c)
    (h : ∀ p ∈ phrases, p.Sound Plain) :
      Lexes (layout first phrases).tail (first.map some ++ phrases.flatMap Phrase.kinds) :=
  (Lexes.spaced hfirst (lexes_phrases h) (apart_phrases phrases)).tail (apart_spaced first (apart_phrases phrases))

/-! ## The words of a query -/

/-- A phrase or a word outside of phrases, which is exposed where its operators stay. -/
inductive Item where
  | phrase
  | word (w : Text) (exposed : Bool)
  deriving DecidableEq, Repr

/-- The items from a phrase on. Behind an empty phrase the words are exposed, the last ones only
where they touch a phrase. -/
def phraseItems : Bool → List Phrase → List Item
  | _, [] => []
  | behind, p :: rest =>
    .phrase :: ((if p.attached = [] then [] else [.word p.attached (behind || p.content.isEmpty)]) ++
      (p.words.map fun w => .word w ((behind || p.content.isEmpty) && !rest.isEmpty)) ++ phraseItems
        (behind || p.content.isEmpty) rest)

def items (replace : Char → Char) (query : Text) : List Item :=
  (firstWords replace query).map (.word · false) ++ phraseItems false (phrases replace query)

/-- What an item is after the default reading. -/
def Item.kind : Item → Option Text
  | .phrase => none
  | .word w exposed => some (if exposed then w else lowerOperator w)

def Item.ExposedOperator : Item → Prop
  | .word w true => w ∈ booleanOperators
  | _ => False

def Item.IsInfix : Item → Prop
  | .phrase => False
  | .word w _ => w ∈ infixOperators

theorem lowerOperator_eq_nil {w : Text} : lowerOperator w = [] ↔ w = [] := by
  have hlow : ∀ op ∈ booleanOperators, lower op ≠ [] ∧ op ≠ [] := by decide +kernel
  rw [lowerOperator]
  split
  · rename_i hop
    exact iff_of_false (hlow w hop).1 (hlow w hop).2
  · rfl

theorem lowerOperator_not_operator (w : Text) : lowerOperator w ∉ booleanOperators := by
  have hlow : ∀ op ∈ booleanOperators, lower op ∉ booleanOperators := by decide +kernel
  rw [lowerOperator]
  split
  · rename_i hop
    exact hlow w hop
  · assumption

theorem kinds_lowerPhrases (phrases : List Phrase) : ∀ behind,
    (lowerPhrases behind phrases).flatMap Phrase.kinds = (phraseItems behind phrases).map Item.kind := by
  induction phrases with
  | nil => exact fun _ => rfl
  | cons p rest ih =>
    intro behind
    rw [lowerPhrases, phraseItems, List.flatMap_cons, ih]
    cases behind || p.content.isEmpty <;> cases rest.isEmpty <;> by_cases hattached : p.attached = [] <;>
      simp [Phrase.kinds, Item.kind, hattached, lowerOperator_eq_nil, Function.comp_def]

theorem kinds_reads {phrases phrases' : List Phrase} (h : List.Forall₂ Phrase.Reads phrases phrases') :
    phrases'.flatMap Phrase.kinds = phrases.flatMap Phrase.kinds := by
  induction h with
  | nil => rfl
  | cons hp _ ih => rw [List.flatMap_cons, List.flatMap_cons, ih, Phrase.kinds, Phrase.kinds, hp.attached, hp.words]

section

variable {u : Unicode} {query : Text}

theorem fts5SafeChar_blank (u : Unicode) : fts5SafeChar u ' ' = ' ' := by
  rw [fts5SafeChar]
  split
  · rfl
  · split <;> rfl

theorem fts5SafeChar_ne_quote (u : Unicode) : ∀ d, d ≠ quoteMark → fts5SafeChar u d ≠ quoteMark := by
  intro d hd
  rw [fts5SafeChar]
  split
  · exact hd
  · split
    · exact hd
    · decide

/-- A character that is no space came through as it is. -/
theorem mapped_safe {c : Char} (h : Mapped (fts5SafeChar u) c) : SafeChar u c := by
  obtain ⟨hspace, d, -, hd⟩ := h
  rw [fts5SafeChar] at hd
  split at hd
  · rename_i hok
    subst hd
    rw [hspace, Bool.or_false] at hok
    exact .inl hok
  · split at hd
    · rename_i hmark
      subst hd
      exact .inr hmark
    · rw [hd] at hspace
      cases hspace

theorem mapped_plain {replace : Char → Char} (hquote : ∀ d, d ≠ quoteMark → replace d ≠ quoteMark)
    {c : Char} (h : Mapped replace c) : Plain c :=
  ⟨h.1, mapped_ne_quote hquote h⟩

theorem Phrase.Sound.imp {P Q : Char → Prop} {p : Phrase} (h : p.Sound P) (hPQ : ∀ c, P c → Q c) : p.Sound Q :=
  ⟨h.content, fun c hc => hPQ c (h.attached c hc),
    fun w hw => ⟨(h.words w hw).1, fun c hc => hPQ c ((h.words w hw).2 c hc)⟩⟩

/-- The characters of a lowered word. -/
theorem lowerOperator_forall {P : Char → Prop}
    (hletters : ∀ c ∈ ['a', 'n', 'd', 'o', 'r', 't', 'e'], P c) {w : Text} (h : ∀ c ∈ w, P c) :
    ∀ c ∈ lowerOperator w, P c := fun c hc => (lowerOperator_chars hc).elim (h c) (hletters c)

theorem lowerPhrases_sound {P : Char → Prop}
    (hletters : ∀ c ∈ ['a', 'n', 'd', 'o', 'r', 't', 'e'], P c) {phrases : List Phrase} :
    ∀ {behind}, (∀ p ∈ phrases, p.Sound P) → ∀ p ∈ lowerPhrases behind phrases, p.Sound P := by
  induction phrases with
  | nil => exact fun _ p hp => absurd hp List.not_mem_nil
  | cons p rest ih =>
    intro behind h q hq
    obtain ⟨hp, hrest⟩ := List.forall_mem_cons.mp h
    have hwords : ∀ w ∈ p.words.map lowerOperator, w ≠ [] ∧ ∀ c ∈ w, P c := by
      intro w hw
      obtain ⟨v, hv, rfl⟩ := List.mem_map.mp hw
      exact ⟨fun h => (hp.words v hv).1 (lowerOperator_eq_nil.mp h), lowerOperator_forall hletters (hp.words v hv).2⟩
    rw [lowerPhrases] at hq
    obtain rfl | hq := List.mem_cons.mp hq
    · split
      · split
        · exact ⟨hp.content, hp.attached, hwords⟩
        · exact hp
      · exact ⟨hp.content, lowerOperator_forall hletters hp.attached, hwords⟩
    · exact ih hrest q hq

theorem reads_sound {P : Char → Prop} {phrases phrases' : List Phrase} (h : List.Forall₂ Phrase.Reads phrases phrases')
    (hsound : ∀ p ∈ phrases, p.Sound P) : ∀ p ∈ phrases', p.Sound P := by
  induction h with
  | nil => exact hsound
  | cons hp _ ih =>
    obtain ⟨hfirst, hrest⟩ := List.forall_mem_cons.mp hsound
    refine List.forall_mem_cons.mpr ⟨⟨hp.content, ?_, ?_⟩, ih hrest⟩
    · rw [hp.attached]
      exact hfirst.attached
    · rw [hp.words]
      exact hfirst.words

theorem letters_plain : ∀ c ∈ ['a', 'n', 'd', 'o', 'r', 't', 'e'], Plain c := by
  have hall : ∀ c ∈ ['a', 'n', 'd', 'o', 'r', 't', 'e'], isSpace c = false ∧ c ≠ quoteMark :=
    forall_mem_of_all (by decide)
  exact hall

/-- The default reading gives the items in their order. -/
theorem lexes_neutral (u : Unicode) (query : Text) :
    Lexes (neutralizeBareOperators (sanitizeQuery query (fts5SafeChar u)))
    ((items (fts5SafeChar u) query).map Item.kind) := by
  have hplain : ∀ c, Mapped (fts5SafeChar u) c → Plain c := fun c => mapped_plain (fts5SafeChar_ne_quote u)
  have hfirst : ∀ w ∈ firstWords (fts5SafeChar u) query, w ≠ [] ∧ ∀ c ∈ w, Plain c := fun w hw =>
    ⟨(firstWords_sound _ query w hw).1, fun c hc => hplain c ((firstWords_sound _ query w hw).2 c hc)⟩
  have hphrases : ∀ p ∈ phrases (fts5SafeChar u) query, p.Sound Plain :=
    fun p hp => (phrases_sound _ query p hp).imp hplain
  obtain ⟨phrases', hreads, hresult⟩ := neutralizeBareOperators_layout hfirst hphrases
  have hlower : ∀ w ∈ (firstWords (fts5SafeChar u) query).map lowerOperator, w ≠ [] ∧ ∀ c ∈ w, Plain c := by
    intro w hw
    obtain ⟨v, hv, rfl⟩ := List.mem_map.mp hw
    exact ⟨fun h => (hfirst v hv).1 (lowerOperator_eq_nil.mp h), lowerOperator_forall letters_plain (hfirst v hv).2⟩
  have hlex := lexes_layout hlower (reads_sound hreads (lowerPhrases_sound letters_plain hphrases))
  rw [kinds_reads hreads, kinds_lowerPhrases] at hlex
  rw [sanitizeQuery_eq (fts5SafeChar_blank u), hresult]
  simpa [items, Item.kind, Function.comp_def] using hlex

/-- The words of the items consist of characters that are kept. -/
theorem items_safe (u : Unicode) (query : Text) :
    ∀ w exposed, Item.word w exposed ∈ items (fts5SafeChar u) query → ∀ c ∈ w, SafeChar u c := by
  have hphrases : ∀ (ps : List Phrase) behind, (∀ p ∈ ps, p.Sound (Mapped (fts5SafeChar u))) →
      ∀ w exposed, Item.word w exposed ∈ phraseItems behind ps → ∀ c ∈ w, SafeChar u c := by
    intro ps
    induction ps with
    | nil => exact fun _ _ w exposed h => absurd h List.not_mem_nil
    | cons p rest ih =>
      intro behind h w exposed hin c hc
      obtain ⟨hp, hrest⟩ := List.forall_mem_cons.mp h
      rw [phraseItems, List.mem_cons, List.mem_append, List.mem_append] at hin
      obtain hin | (hin | hin) | hin := hin
      · cases hin
      · split at hin
        · cases hin
        · obtain ⟨rfl, -⟩ := Item.word.inj (List.mem_singleton.mp hin)
          exact mapped_safe (hp.attached c hc)
      · obtain ⟨v, hv, he⟩ := List.mem_map.mp hin
        obtain ⟨rfl, -⟩ := Item.word.inj he
        exact mapped_safe ((hp.words v hv).2 c hc)
      · exact ih _ hrest w exposed hin c hc
  intro w exposed hin c hc
  rw [items, List.mem_append] at hin
  obtain hin | hin := hin
  · obtain ⟨v, hv, he⟩ := List.mem_map.mp hin
    obtain ⟨rfl, -⟩ := Item.word.inj he
    exact mapped_safe ((firstWords_sound _ query v hv).2 c hc)
  · exact hphrases _ _ (phrases_sound _ query) w exposed hin c hc

theorem letters_safe (hu : u.Ascii) : ∀ c ∈ ['a', 'n', 'd', 'o', 'r', 't', 'e'], SafeChar u c := by
  have hall : ∀ c ∈ ['a', 'n', 'd', 'o', 'r', 't', 'e'], c.toNat < 128 ∧
      (c.isAlpha || c.isDigit) = true := forall_mem_of_all (by decide)
  intro c hc
  exact .inl ((hu.alnum c (hall c hc).1).trans (hall c hc).2)

theorem kind_safe (hu : u.Ascii) {item : Item} (hitem : item ∈ items (fts5SafeChar u) query)
    {w : Text} (hw : item.kind = some w) :
    ∀ c ∈ w, SafeChar u c := by
  cases item with
  | phrase => cases hw
  | word v exposed =>
    obtain rfl := Option.some.inj hw
    have hv := items_safe u query v exposed hitem
    cases exposed with
    | true => exact hv
    | false => exact lowerOperator_forall (letters_safe hu) hv

theorem kind_operator {item : Item} {w : Text} (hw : item.kind = some w) : w ∈ booleanOperators ↔
    item.ExposedOperator := by
  cases item with
  | phrase => cases hw
  | word v exposed =>
    obtain rfl := Option.some.inj hw
    cases exposed with
    | true => rfl
    | false => exact iff_of_false (lowerOperator_not_operator v) id

/-- The default reading is safe exactly where no operator is exposed. -/
theorem defaultSafe_iff (hu : u.Ascii) (query : Text) :
    DefaultSafe u (neutralizeBareOperators (sanitizeQuery query (fts5SafeChar u))) ↔
    ∀ item ∈ items (fts5SafeChar u) query, ¬ item.ExposedOperator := by
  obtain ⟨tokens, htokens, hkinds⟩ := lexes_neutral u query
  constructor
  · rintro ⟨tokens', htokens', hsafe⟩ item hitem hexposed
    obtain rfl := Option.some.inj (htokens.symm.trans htokens')
    have hin : item.kind ∈ tokens.map Token.word := by
      rw [hkinds]
      exact List.mem_map_of_mem hitem
    obtain ⟨token, htoken, hword⟩ := List.mem_map.mp hin
    cases hkind : item.kind with
    | none =>
      cases item with
      | phrase => exact hexposed
      | word v exposed => cases hkind
    | some w => exact (hsafe token htoken w (hword.trans hkind)).2 ((kind_operator hkind).mpr hexposed)
  · intro hnone
    refine ⟨tokens, htokens, fun token htoken w hw => ?_⟩
    have hin : some w ∈ (items (fts5SafeChar u) query).map Item.kind := by
      rw [← hkinds, ← hw]
      exact List.mem_map_of_mem htoken
    obtain ⟨item, hitem, hkind⟩ := List.mem_map.mp hin
    exact ⟨kind_safe hu hitem hkind, fun hop => hnone item hitem ((kind_operator hkind).mp hop)⟩

end

end SearchQuery
