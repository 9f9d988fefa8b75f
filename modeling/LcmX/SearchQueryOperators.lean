import LcmX.SearchQueryPhrases

/-!
# Which operators are lowered

Up to the first empty phrase every word outside of phrases is lowered. From there on the
pattern takes the text between two phrases for a phrase, so that the operators in it stay.
-/
namespace SearchQuery

open Regex PyText

/-! ## Lowering a text -/

theorem lowerOperatorTokens_append (a b : Text) :
    lowerOperatorTokens (a ++ ' ' :: b) = lowerOperatorTokens a ++ ' ' :: lowerOperatorTokens b := by
  have hparts : ∀ {parts more : List Text}, parts ≠ [] → more ≠ [] →
      [' '].intercalate (parts ++ more) = [' '].intercalate parts ++ ' ' :: [' '].intercalate more := by
    intro parts more hparts hmore
    induction parts with
    | nil => exact absurd rfl hparts
    | cons w parts ih =>
      cases parts with
      | nil =>
        obtain ⟨v, more, rfl⟩ := List.exists_cons_of_ne_nil hmore
        simp
      | cons v parts =>
        rw [List.cons_append, List.cons_append, List.intercalate_cons_cons, ← List.cons_append,
          ih (List.cons_ne_nil _ _),
          List.intercalate_cons_cons]
        simp
  rw [lowerOperatorTokens, List.splitOn_append_cons_self, List.map_append]
  exact hparts (by simp [List.splitOn_ne_nil]) (by simp [List.splitOn_ne_nil])

theorem lowerOperatorTokens_word {w : Text} (h : ' ' ∉ w) : lowerOperatorTokens w = lowerOperator w := by
  rw [lowerOperatorTokens, List.splitOn_eq_singleton h]
  simp

theorem lowerOperatorTokens_spaced {words : List Text} (hwords : ∀ w ∈ words, ' ' ∉ w) : ∀ a,
    lowerOperatorTokens (a ++ spaced words) = lowerOperatorTokens a ++ spaced (words.map lowerOperator) := by
  induction words with
  | nil => simp [spaced]
  | cons w words ih =>
    intro a
    obtain ⟨hw, hrest⟩ := List.forall_mem_cons.mp hwords
    have hfront : a ++ spaced (w :: words) = (a ++ ' ' :: w) ++ spaced words := by simp [spaced]
    rw [hfront, ih hrest, lowerOperatorTokens_append, lowerOperatorTokens_word hw]
    simp [spaced]

theorem lowerOperator_of_quote {w : Text} (h : quoteMark ∈ w) : lowerOperator w = w := by
  have hplain : ∀ op ∈ booleanOperators, quoteMark ∉ op := by decide
  exact if_neg fun hop => hplain w hop h

theorem lowerOperator_chars {w : Text} {c : Char} (hc : c ∈ lowerOperator w) :
    c ∈ w ∨ c ∈ ['a', 'n', 'd', 'o', 'r', 't', 'e'] := by
  have hlow : ∀ op ∈ booleanOperators,
      ((lower op).all fun c => decide (c ∈ ['a', 'n', 'd', 'o', 'r', 't', 'e'])) = true := by decide +kernel
  rw [lowerOperator] at hc
  split at hc
  · rename_i hop
    exact .inr (forall_mem_of_all (hlow w hop) c hc)
  · exact .inl hc

theorem mem_intercalate {parts : List Text} {c : Char} (h : c ∈ [' '].intercalate parts) :
    c = ' ' ∨ ∃ part ∈ parts, c ∈ part := by
  rw [intercalate_eq_tail] at h
  obtain ⟨part, hpart, hc⟩ := List.mem_flatMap.mp (List.mem_of_mem_tail h)
  exact (List.mem_cons.mp hc).imp_right fun hin => ⟨part, hpart, hin⟩

theorem mem_of_mem_splitOn {text part : Text} {c : Char} (hpart : part ∈ text.splitOn ' ')
    (hc : c ∈ part) : c ∈ text := by
  have hmem : ∀ parts : List Text, part ∈ parts → c ∈ [' '].intercalate parts := by
    intro parts hin
    induction parts with
    | nil => cases hin
    | cons w parts ih =>
      cases parts with
      | nil =>
        obtain rfl := List.mem_singleton.mp hin
        simpa using hc
      | cons v parts =>
        rw [List.intercalate_cons_cons]
        obtain rfl | hin := List.mem_cons.mp hin
        · exact List.mem_append_left _ (List.mem_append_left _ hc)
        · exact List.mem_append_right _ (ih hin)
  rw [← @List.intercalate_splitOn _ text _ _ ' ']
  exact hmem _ hpart

theorem lowerOperatorTokens_no_quote {text : Text} (h : quoteMark ∉ text) : quoteMark ∉ lowerOperatorTokens text := by
  intro hin
  obtain hblank | ⟨part, hpart, hc⟩ := mem_intercalate hin
  · exact absurd hblank (by decide)
  · obtain ⟨token, htoken, rfl⟩ := List.mem_map.mp hpart
    obtain hc | hc := lowerOperator_chars hc
    · exact h (mem_of_mem_splitOn htoken hc)
    · exact absurd hc (by decide)

/-- The last token of a text is left as it is when it holds a quote. -/
theorem lowerOperatorTokens_quote {w : Text} (hw : ' ' ∉ w) (n : Nat) :
    ∀ content : Text, content.length ≤ n → quoteMark ∉ content →
    ∃ content', quoteMark ∉ content' ∧ lowerOperatorTokens (content ++ quoteMark :: w) = content' ++
      quoteMark :: w := by
  induction n with
  | zero =>
    intro content hlen _
    obtain rfl := List.length_eq_zero_iff.mp (Nat.le_zero.mp hlen)
    refine ⟨[], List.not_mem_nil, ?_⟩
    rw [List.nil_append, lowerOperatorTokens_word (List.not_mem_cons_of_ne_of_not_mem (by decide) hw),
      lowerOperator_of_quote List.mem_cons_self]
  | succ n ih =>
    intro content hlen hcontent
    by_cases hblank : ' ' ∈ content
    · obtain ⟨a, b, rfl, -⟩ := List.eq_append_cons_of_mem hblank
      have hb : quoteMark ∉ b := fun h => hcontent (List.mem_append_right _ (List.mem_cons_of_mem _ h))
      obtain ⟨b', hb', hsame⟩ := ih b (by simp only [List.length_append, List.length_cons] at hlen; omega) hb
      refine ⟨lowerOperatorTokens a ++ ' ' :: b', fun h => ?_, ?_⟩
      · obtain h | h := List.mem_append.mp h
        · exact lowerOperatorTokens_no_quote (fun ha => hcontent (List.mem_append_left _ ha)) h
        · exact absurd h (List.not_mem_cons_of_ne_of_not_mem (by decide) hb')
      · rw [List.append_assoc, List.cons_append, lowerOperatorTokens_append, hsame, List.append_assoc, List.cons_append]
    · refine ⟨content, hcontent, ?_⟩
      rw [lowerOperatorTokens_word, lowerOperator_of_quote (List.mem_append_right _ List.mem_cons_self)]
      intro h
      obtain h | h := List.mem_append.mp h
      · exact hblank h
      · exact absurd h (List.not_mem_cons_of_ne_of_not_mem (by decide) hw)

/-! ## The pattern over a layout -/

/-- The rest of a text, with what stands before it between two phrases, is neutralised to a result. -/
def Neutral (between text result : Text) : Prop :=
  ∀ fuel behind, text.length ≤ fuel → neutralizePieces between (pieces quotedPhraseRe fuel behind text) = result

section

variable {between text result content : Text}

theorem neutral_nil (between : Text) : Neutral between [] (lowerOperatorTokens between) := by
  intro fuel behind _
  cases fuel with
  | zero => rfl
  | succ fuel => rfl

theorem Neutral.char {c : Char} (hnone : ∀ behind, matchAt quotedPhraseRe behind (c :: text) = none)
    (h : Neutral (between ++ [c]) text result) :
    Neutral between (c :: text) result := by
  intro fuel behind hfuel
  cases fuel with
  | zero => cases hfuel
  | succ fuel =>
    rw [pieces_of_none (hnone behind), neutralizePieces]
    exact h fuel _ (Nat.le_of_succ_le_succ hfuel)

theorem Neutral.plain {a : Text} (ha : quoteMark ∉ a) : ∀ {between : Text},
    Neutral (between ++ a) text result → Neutral between (a ++ text) result := by
  induction a with
  | nil =>
    intro between h
    rw [List.append_nil] at h
    exact h
  | cons c a ih =>
    intro between h
    have hc : c ≠ quoteMark := fun he => ha (he ▸ List.mem_cons_self)
    refine Neutral.char (fun behind => matchAt_none_of_ne hc) (ih (fun hin => ha (List.mem_cons_of_mem _ hin)) ?_)
    rw [List.append_assoc, List.singleton_append]
    exact h

theorem Neutral.phrase (hne : content ≠ []) (hcontent : quoteMark ∉ content) (h : Neutral [] text result) :
    Neutral between (quoteMark :: (content ++ quoteMark :: text))
    (lowerOperatorTokens between ++ quoteMark :: (content ++ quoteMark :: result)) := by
  intro fuel behind hfuel
  cases fuel with
  | zero => cases hfuel
  | succ fuel =>
    obtain ⟨m, behind', hpieces, hm⟩ := @pieces_phrase fuel behind text content hne hcontent
    have hless : text.length ≤ fuel := by
      simp only [List.length_cons, List.length_append] at hfuel
      omega
    rw [hpieces, neutralizePieces, hm, h fuel behind' hless]
    simp

theorem neutral_last (htext : quoteMark ∉ text) : Neutral between (quoteMark :: text)
    (lowerOperatorTokens (between ++ quoteMark :: text)) := by
  refine Neutral.char (fun behind => matchAt_none_of_last htext) ?_
  have h := @Neutral.plain [] _ _ htext _ (neutral_nil (between ++ [quoteMark] ++ text))
  rw [List.append_nil, List.append_assoc, List.singleton_append] at h
  exact h

end

/-- The phrases with the words as they are left, where the contents do not matter. After an empty phrase only the words
behind the last phrase are lowered, up to one that touches it. -/
def lowerPhrases : Bool → List Phrase → List Phrase
  | _, [] => []
  | shifted, p :: rest =>
    (if shifted || p.content.isEmpty then (if rest.isEmpty then { p with words := p.words.map lowerOperator } else p)
      else { p with attached := lowerOperator p.attached, words := p.words.map lowerOperator }) ::
      lowerPhrases (shifted || p.content.isEmpty) rest

/-- Another phrase with the same words outside. -/
structure Phrase.Reads (p p' : Phrase) : Prop where
  attached : p'.attached = p.attached
  words : p'.words = p.words
  content : quoteMark ∉ p'.content

/-- What a word outside of phrases holds. -/
def Plain (c : Char) : Prop := isSpace c = false ∧ c ≠ quoteMark

theorem plain_words {words : List Text} (h : ∀ w ∈ words, w ≠ [] ∧ ∀ c ∈ w, Plain c) :
    (∀ w ∈ words, ' ' ∉ w) ∧ quoteMark ∉ spaced words := by
  refine ⟨fun w hw hin => ?_, fun hin => ?_⟩
  · have hblank := ((h w hw).2 ' ' hin).1
    cases hblank
  · obtain ⟨w, hw, hc⟩ := List.mem_flatMap.mp hin
    obtain hc | hc := List.mem_cons.mp hc
    · exact absurd hc (by decide)
    · exact ((h w hw).2 _ hc).2 rfl

theorem no_blank {w : Text} (h : ∀ c ∈ w, Plain c) : ' ' ∉ w := by
  intro hin
  have hblank := (h ' ' hin).1
  cases hblank

theorem no_quote {w : Text} (h : ∀ c ∈ w, Plain c) : quoteMark ∉ w := fun hin => (h _ hin).2 rfl

/-- From a closing quote on, when the pattern takes it for an opening one. -/
theorem neutral_shifted (rest : List Phrase) (hrest : ∀ p ∈ rest, p.Sound Plain) :
    ∀ (between attached : Text) (words : List Text),
    (∀ c ∈ attached, Plain c) → (∀ w ∈ words, w ≠ [] ∧ ∀ c ∈ w, Plain c) →
    ∃ rest', List.Forall₂ Phrase.Reads (lowerPhrases true rest) rest' ∧
      Neutral between (quoteMark :: (attached ++ (spaced words ++ rest.flatMap Phrase.text)))
        ((if rest.isEmpty then lowerOperatorTokens (between ++ quoteMark :: attached)
        else lowerOperatorTokens between ++ quoteMark :: attached) ++
          (spaced (if rest.isEmpty then words.map lowerOperator else words) ++ rest'.flatMap Phrase.text)) := by
  induction rest with
  | nil =>
    intro between attached words hattached hwords
    obtain ⟨hblank, hquote⟩ := plain_words hwords
    refine ⟨[], .nil, ?_⟩
    have htext : quoteMark ∉ attached ++ spaced words :=
      fun h => (List.mem_append.mp h).elim (no_quote hattached) hquote
    have h := @neutral_last between _ htext
    rw [← List.cons_append, ← List.append_assoc, lowerOperatorTokens_spaced hblank] at h
    simpa using h
  | cons p rest ih =>
    intro between attached words hattached hwords
    obtain ⟨hp, hmore⟩ := List.forall_mem_cons.mp hrest
    obtain ⟨hblank, hquote⟩ := plain_words hwords
    obtain ⟨rest', hreads, hneutral⟩ := ih hmore p.content p.attached p.words hp.attached hp.words
    -- the content that the pattern sees is the text between the two phrases
    have hgap : quoteMark ∉ attached ++ (spaced words ++ [' ']) := by
      intro h
      obtain h | h := List.mem_append.mp h
      · exact no_quote hattached h
      · obtain h | h := List.mem_append.mp h
        · exact hquote h
        · exact absurd (List.mem_singleton.mp h) (by decide)
    have hclosed : ∃ content', quoteMark ∉ content' ∧
        (if rest.isEmpty then lowerOperatorTokens (p.content ++ quoteMark :: p.attached)
          else lowerOperatorTokens p.content ++ quoteMark :: p.attached) =
          content' ++ quoteMark :: p.attached := by
      split
      · exact lowerOperatorTokens_quote (no_blank hp.attached) _ p.content (Nat.le_refl _) hp.content
      · exact ⟨_, lowerOperatorTokens_no_quote hp.content, rfl⟩
    obtain ⟨content', hcontent', hsame⟩ := hclosed
    rw [hsame] at hneutral
    refine ⟨⟨content', p.attached, if rest.isEmpty then p.words.map lowerOperator else p.words⟩ :: rest', ?_, ?_⟩
    · rw [lowerPhrases]
      refine .cons ⟨?_, ?_, hcontent'⟩ hreads <;> cases rest.isEmpty <;> rfl
    · have h := @Neutral.phrase between _ _ _ (by simp) hgap (Neutral.plain hp.content hneutral)
      simpa [Phrase.text] using h

/-- What a lowered layout says of the rest of a text, behind a word that touches what stands before. -/
def LowersBehind (rest : List Phrase) : Prop :=
  ∀ (attached : Text) (words : List Text), (∀ c ∈ attached, Plain c) → (∀ w ∈ words, w ≠ [] ∧ ∀ c ∈ w, Plain c) →
    ∃ rest', List.Forall₂ Phrase.Reads (lowerPhrases false rest) rest' ∧
      Neutral [] (attached ++ (spaced words ++ rest.flatMap Phrase.text))
        (lowerOperator attached ++ (spaced (words.map lowerOperator) ++ rest'.flatMap Phrase.text))

/-- From an opening quote on. -/
theorem neutral_phrase {p : Phrase} {rest : List Phrase} (hp : p.Sound Plain)
    (hrest : ∀ p ∈ rest, p.Sound Plain) (ih : LowersBehind rest)
    {between : Text} (hends : ∀ w, ' ' ∉ w → quoteMark ∈ w →
      lowerOperatorTokens (between ++ w) = lowerOperatorTokens between ++ w) :
    ∃ all, List.Forall₂ Phrase.Reads (lowerPhrases false (p :: rest)) all ∧
      Neutral between (p.text ++ rest.flatMap Phrase.text).tail
      (lowerOperatorTokens between ++ (all.flatMap Phrase.text).tail) := by
  rw [lowerPhrases]
  by_cases hcontent : p.content = []
  · -- the first empty phrase
    obtain ⟨rest', hreads, hneutral⟩ :=
      neutral_shifted rest hrest (between ++ [quoteMark]) p.attached p.words hp.attached hp.words
    have hblank := no_blank hp.attached
    have hclosed : (if rest.isEmpty then lowerOperatorTokens (between ++ [quoteMark] ++ quoteMark :: p.attached)
        else lowerOperatorTokens (between ++ [quoteMark]) ++ quoteMark :: p.attached) =
          lowerOperatorTokens between ++ quoteMark :: quoteMark :: p.attached := by
      split
      · rw [List.append_assoc, List.singleton_append, hends _ (by simp [quoteMark, hblank]) List.mem_cons_self]
      · rw [hends _ (by decide) List.mem_cons_self, List.append_assoc, List.singleton_append]
    rw [hclosed] at hneutral
    refine ⟨⟨[], p.attached, if rest.isEmpty then p.words.map lowerOperator else p.words⟩ :: rest', ?_, ?_⟩
    · rw [hcontent]
      refine .cons ⟨?_, ?_, List.not_mem_nil⟩ hreads <;> cases rest.isEmpty <;> rfl
    · have h := Neutral.char (fun behind => matchAt_none_of_empty) hneutral
      simpa [Phrase.text, hcontent] using h
  · obtain ⟨rest', hreads, hneutral⟩ := ih p.attached p.words hp.attached hp.words
    have hempty : p.content.isEmpty = false := by simpa using hcontent
    refine ⟨⟨p.content, lowerOperator p.attached, p.words.map lowerOperator⟩ :: rest', ?_, ?_⟩
    · rw [hempty]
      exact .cons ⟨rfl, rfl, hp.content⟩ hreads
    · have h := @Neutral.phrase between _ _ _ hcontent hp.content hneutral
      simpa [Phrase.text] using h

/-- Sound phrases are lowered behind any word. -/
theorem lowers_behind (rest : List Phrase) (hrest : ∀ p ∈ rest, p.Sound Plain) : LowersBehind rest := by
  induction rest with
  | nil =>
    intro attached words hattached hwords
    obtain ⟨hblank, hquote⟩ := plain_words hwords
    have htext : quoteMark ∉ attached ++ spaced words :=
      fun h => (List.mem_append.mp h).elim (no_quote hattached) hquote
    have h := @Neutral.plain [] _ _ htext [] (neutral_nil _)
    rw [List.nil_append, lowerOperatorTokens_spaced hblank, lowerOperatorTokens_word (no_blank hattached)] at h
    refine ⟨[], .nil, ?_⟩
    simpa using h
  | cons p rest ih =>
    intro attached words hattached hwords
    obtain ⟨hp, hmore⟩ := List.forall_mem_cons.mp hrest
    obtain ⟨hblank, hquote⟩ := plain_words hwords
    have hends : ∀ w, ' ' ∉ w → quoteMark ∈ w → lowerOperatorTokens ((attached ++ spaced words) ++ [' '] ++ w) =
        lowerOperatorTokens ((attached ++ spaced words) ++ [' ']) ++ w := by
      intro w hw hin
      rw [List.append_assoc, List.singleton_append, lowerOperatorTokens_append,
        lowerOperatorTokens_append, lowerOperatorTokens_word hw,
        lowerOperator_of_quote hin]
      simp [lowerOperatorTokens, lowerOperator, booleanOperators]
    obtain ⟨all, hreads, hneutral⟩ := neutral_phrase hp hmore (ih hmore) hends
    have hall : ∃ p' rest', all = p' :: rest' := by
      rw [lowerPhrases] at hreads
      cases hreads with
      | cons _ _ => exact ⟨_, _, rfl⟩
    obtain ⟨p', rest', rfl⟩ := hall
    refine ⟨p' :: rest', hreads, ?_⟩
    have hgap : quoteMark ∉ (attached ++ spaced words) ++ [' '] := by
      intro h
      obtain h | h := List.mem_append.mp h
      · exact (List.mem_append.mp h).elim (no_quote hattached) hquote
      · exact absurd (List.mem_singleton.mp h) (by decide)
    have h := @Neutral.plain _ _ _ hgap [] hneutral
    have hlow : lowerOperatorTokens ((attached ++ spaced words) ++ [' ']) =
        lowerOperator attached ++ (spaced (words.map lowerOperator) ++ [' ']) := by
      rw [lowerOperatorTokens_append, lowerOperatorTokens_spaced hblank, lowerOperatorTokens_word (no_blank hattached)]
      simp [lowerOperatorTokens, lowerOperator, booleanOperators]
    rw [hlow] at h
    simpa [Phrase.text] using h

/-- The layout after the operators are lowered. -/
theorem neutralizeBareOperators_layout {first : List Text} {phrases : List Phrase}
    (hfirst : ∀ w ∈ first, w ≠ [] ∧ ∀ c ∈ w, Plain c)
    (hphrases : ∀ p ∈ phrases, p.Sound Plain) :
    ∃ phrases', List.Forall₂ Phrase.Reads (lowerPhrases false phrases) phrases' ∧
      neutralizeBareOperators (layout first phrases).tail = (layout (first.map lowerOperator) phrases').tail := by
  cases first with
  | cons w first =>
    obtain ⟨hw, hmore⟩ := List.forall_mem_cons.mp hfirst
    obtain ⟨phrases', hreads, hneutral⟩ := lowers_behind phrases hphrases w first hw.2 hmore
    refine ⟨phrases', hreads, ?_⟩
    have htail : (layout (w :: first) phrases).tail = w ++
        (spaced first ++ phrases.flatMap Phrase.text) := by simp [layout, spaced]
    rw [neutralizeBareOperators, cut, htail, hneutral _ _ (Nat.le_refl _)]
    simp [layout, spaced]
  | nil =>
    cases phrases with
    | nil => exact ⟨[], .nil, rfl⟩
    | cons p rest =>
      obtain ⟨hp, hmore⟩ := List.forall_mem_cons.mp hphrases
      have hends : ∀ w, ' ' ∉ w → quoteMark ∈ w → lowerOperatorTokens ([] ++ w) = lowerOperatorTokens [] ++ w := by
        intro w hw hin
        rw [List.nil_append, lowerOperatorTokens_word hw, lowerOperator_of_quote hin]
        rfl
      obtain ⟨all, hreads, hneutral⟩ := neutral_phrase hp hmore (lowers_behind rest hmore) hends
      refine ⟨all, hreads, ?_⟩
      have h := hneutral _ [] (Nat.le_refl _)
      rw [neutralizeBareOperators, cut]
      simpa [layout, spaced, lowerOperatorTokens, lowerOperator, booleanOperators] using h

end SearchQuery
