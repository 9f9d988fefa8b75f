import LcmX.SearchQueryGrammar

/-!
# The reading for agents

The tokens of a query are its phrases and its words, and an operator is kept only between
two others. A query that is read as prose falls back to the default reading.
-/
namespace SearchQuery

open Regex PyText

/-! ## Placement -/

section

variable {α β : Type} {f : α → β} {P Q : α → Prop} {P' Q' : β → Prop} {l : List α}

theorem wellPlaced_map (hop : ∀ x ∈ l, P' (f x) ↔ P x) (hbetween : ∀ x ∈ l, P x → (Q' (f x) ↔ Q x)) :
    WellPlaced P' Q' (l.map f) ↔ WellPlaced P Q l := by
  constructor
  · intro h before x after hl hx
    have hx' : x ∈ l := by rw [hl]; simp
    have hsplit : l.map f = before.map f ++ f x :: after.map f := by rw [hl, List.map_append, List.map_cons]
    obtain ⟨hin, ⟨a, ha, hnot⟩, b, hb, hnot'⟩ := h _ _ _ hsplit ((hop x hx').mpr hx)
    rw [List.getLast?_map, Option.map_eq_some_iff] at ha
    rw [List.head?_map, Option.map_eq_some_iff] at hb
    obtain ⟨a, ha, rfl⟩ := ha
    obtain ⟨b, hb, rfl⟩ := hb
    have hal : a ∈ l := by rw [hl]; exact List.mem_append_left _ (List.mem_of_getLast? ha)
    have hbl : b ∈ l := by rw [hl]; exact List.mem_append_right _ (List.mem_cons_of_mem _ (List.mem_of_mem_head? hb))
    exact ⟨(hbetween x hx' hx).mp hin, ⟨a, ha, fun he => hnot ((hop a hal).mpr he)⟩, b, hb,
      fun he => hnot' ((hop b hbl).mpr he)⟩
  · intro h before' y after' hl hy
    obtain ⟨before, rest, rfl, rfl, hrest⟩ := List.map_eq_append_iff.mp hl
    obtain ⟨x, after, rfl, rfl, rfl⟩ := List.map_eq_cons_iff.mp hrest
    have hx : P x := (hop x (by simp)).mp hy
    obtain ⟨hin, ⟨a, ha, hnot⟩, b, hb, hnot'⟩ := h before x after rfl hx
    have hal : a ∈ before ++ x :: after := List.mem_append_left _ (List.mem_of_getLast? ha)
    have hbl : b ∈ before ++ x :: after := List.mem_append_right _ (List.mem_cons_of_mem _ (List.mem_of_mem_head? hb))
    refine ⟨(hbetween x (by simp) hx).mpr hin, ⟨f a, ?_, fun he => hnot ((hop a hal).mp he)⟩, f b,
      ?_, fun he => hnot' ((hop b hbl).mp he)⟩
    · rw [List.getLast?_map, ha, Option.map_some]
    · rw [List.head?_map, hb, Option.map_some]

end

/-! ## A query that is read as prose -/

section

variable {u : Unicode} {query : Text}

theorem safe_ne_star (hu : u.Ascii) {c : Char} (h : SafeChar u c) : c ≠ '*' := by
  rintro rfl
  have halnum := hu.alnum '*' (by decide)
  have hmark := hu.mark '*' (by decide)
  obtain h | h := h
  · rw [halnum] at h
    revert h
    decide
  · rw [hmark] at h
    cases h

theorem takeWhile_of_no_star {w : Text} (h : '*' ∉ w) : (w.takeWhile fun c => c ≠ '*') = w := by
  rw [List.takeWhile_eq_self_iff]
  exact fun c hc => decide_eq_true fun he => h (he ▸ hc)

/-- Read as prose, a query is safe for an agent exactly where its exposed operators are well placed. -/
theorem agentSafe_prose_iff (hu : u.Ascii) (query : Text) :
    AgentSafe u (neutralizeBareOperators (sanitizeQuery query (fts5SafeChar u))) ↔
    WellPlaced Item.ExposedOperator Item.IsInfix (items (fts5SafeChar u) query) := by
  obtain ⟨tokens, htokens, hkinds⟩ := lexes_neutral u query
  have hstar : ∀ item ∈ items (fts5SafeChar u) query, ∀ w, item.kind = some w → '*' ∉ w := fun item hitem w hw hin =>
    safe_ne_star hu (kind_safe hu hitem hw '*' hin) rfl
  have hitems : WellPlaced IsOperator IsInfix ((items (fts5SafeChar u) query).map Item.kind) ↔
      WellPlaced Item.ExposedOperator Item.IsInfix (items (fts5SafeChar u) query) := by
    refine wellPlaced_map (fun item hitem => ?_) fun item hitem hexposed => ?_
    · cases hkind : item.kind with
      | none =>
        cases item with
        | phrase => exact Iff.rfl
        | word v exposed => cases hkind
      | some w =>
        rw [IsOperator, takeWhile_of_no_star (hstar item hitem w hkind)]
        exact kind_operator hkind
    · cases item with
      | phrase => exact hexposed.elim
      | word v exposed =>
        cases exposed with
        | true => exact Iff.rfl
        | false => exact hexposed.elim
  have hplaced : WellPlaced (fun token : Token => IsOperator token.word) (fun token => IsInfix token.word) tokens ↔
      WellPlaced Item.ExposedOperator Item.IsInfix (items (fts5SafeChar u) query) := by
    rw [← hitems, ← hkinds]
    exact (wellPlaced_map (fun _ _ => Iff.rfl) fun _ _ _ => Iff.rfl).symm
  constructor
  · rintro ⟨tokens', htokens', -, hsafe⟩
    obtain rfl := Option.some.inj (htokens.symm.trans htokens')
    exact hplaced.mp hsafe
  · intro h
    refine ⟨tokens, htokens, fun token htoken w hw => ?_, hplaced.mpr h⟩
    have hin : some w ∈ (items (fts5SafeChar u) query).map Item.kind := by
      rw [← hkinds, ← hw]
      exact List.mem_map_of_mem htoken
    obtain ⟨item, hitem, hkind⟩ := List.mem_map.mp hin
    exact ⟨fun c hc _ => kind_safe hu hitem hkind c hc, fun h => absurd h (hstar item hitem w hkind)⟩

end

/-! ## The tokens that the pattern finds -/

/-- The pattern finds these texts, one after another. -/
def Finds (text : Text) (found : List Text) : Prop :=
  ∀ fuel behind, text.length ≤ fuel →
    ((pieces agentTokenRe fuel behind text).filterMap Sum.getRight?).map Match.text = found

section

variable {text : Text} {found : List Text}

theorem run_agentTokenRe (s : State) : run agentTokenRe s =
    (s.next (· = quoteMark)).flatMap
    (fun t => (run (star (.char (· ≠ quoteMark))) t).flatMap fun v => v.next (· = quoteMark)) ++
      run (plus (.char fun c => !isSpace c && c ≠ quoteMark)) s := by
  rw [agentTokenRe, run, run, run]
  congr 2

theorem Finds.step {w : Text} (hne : w ≠ []) (hmatch : ∀ behind, ∃ t, matchAt agentTokenRe behind (w ++ text) = some t ∧
    Reaches ⟨behind, w ++ text, []⟩ w t) (h : Finds text found) : Finds (w ++ text) (w :: found) := by
  intro fuel behind hfuel
  have hpos := List.length_pos_of_ne_nil hne
  rw [List.length_append] at hfuel
  cases fuel with
  | zero => omega
  | succ fuel =>
    obtain ⟨t, ht, hreaches⟩ := hmatch behind
    have hahead : t.ahead = text := (List.append_cancel_left hreaches.2).symm
    have hless : t.ahead.length < (w ++ text).length := by
      rw [hahead, List.length_append]
      omega
    rw [pieces_succ, ht, Option.filter_some, if_pos (decide_eq_true hless)]
    simp only [hahead]
    rw [List.filterMap_cons_some (by rfl), List.map_cons, hreaches.found_text, h fuel _ (by omega)]

theorem finds_nil : Finds [] [] := by
  intro fuel behind _
  cases fuel <;> rfl

theorem Finds.blank (h : Finds text found) : Finds (' ' :: text) found := by
  intro fuel behind hfuel
  cases fuel with
  | zero => cases hfuel
  | succ fuel =>
    have hnone : matchAt agentTokenRe behind (' ' :: text) = none := by
      rw [matchAt, run_agentTokenRe, plus, run_greedy_cons]
      rfl
    rw [pieces_succ, hnone, Option.filter_none]
    exact h fuel _ (Nat.le_of_succ_le_succ hfuel)

theorem Finds.word (h : Finds text found) (hapart : ∀ c ∈ text.head?, c = ' ' ∨ c = quoteMark)
    {w : Text} (hne : w ≠ []) (hw : ∀ c ∈ w, Plain c) :
    Finds (w ++ text) (w :: found) := by
  refine Finds.step hne (fun behind => ?_) h
  have hstop : ∀ c ∈ text.head?, (!isSpace c && decide (c ≠ quoteMark)) = false := by
    intro c hc
    obtain rfl | rfl := hapart c hc <;> decide
  have hplain : ∀ c ∈ w, (!isSpace c && decide (c ≠ quoteMark)) = true := by
    intro c hc
    obtain ⟨hspace, hquote⟩ := hw c hc
    simp [hspace, hquote]
  obtain ⟨more, hmore⟩ := run_greedy_first hstop [] w behind hplain (Nat.one_le_iff_ne_zero.mpr (by simpa using hne))
  have hfirst : (⟨behind, w ++ text, []⟩ : State).next (fun c => decide (c = quoteMark)) = [] := by
    obtain ⟨c, rest, rfl⟩ := List.exists_cons_of_ne_nil hne
    simp [State.next, (hw c List.mem_cons_self).2]
  refine ⟨⟨w.reverse ++ behind, text, []⟩, ?_, rfl, rfl⟩
  rw [matchAt, run_agentTokenRe, hfirst, plus, hmore]
  rfl

theorem Finds.quoted (h : Finds text found) {content : Text} (hcontent : quoteMark ∉ content) :
    Finds (quoteMark :: (content ++ quoteMark :: text)) ((quoteMark :: (content ++ [quoteMark])) :: found) := by
  have hsame : quoteMark :: (content ++ quoteMark :: text) = (quoteMark :: (content ++ [quoteMark])) ++ text := by simp
  rw [hsame]
  refine Finds.step (List.cons_ne_nil _ _) (fun behind => ?_) h
  rw [← hsame]
  have hplain : ∀ c ∈ content, decide (c ≠ quoteMark) = true := fun c hc => decide_eq_true fun he => hcontent (he ▸ hc)
  have hstop : ∀ c ∈ (quoteMark :: text).head?, decide (c ≠ quoteMark) = false := by
    intro c hc
    obtain rfl := Option.some.inj hc
    exact decide_eq_false (not_not.mpr rfl)
  obtain ⟨more, hmore⟩ := @run_greedy_first _ _ hstop [] content (quoteMark :: behind) 0 hplain (Nat.zero_le _)
  have hfirst : (⟨behind, quoteMark :: (content ++ quoteMark :: text), []⟩ : State).next
    (fun c => decide (c = quoteMark)) =
      [⟨quoteMark :: behind, content ++ quoteMark :: text, []⟩] := rfl
  refine ⟨⟨quoteMark :: (content.reverse ++ quoteMark :: behind), text, []⟩, ?_, by simp, by simp⟩
  rw [matchAt, run_agentTokenRe, hfirst, List.flatMap_cons, Regex.star, hmore]
  rfl

theorem Finds.spaced {words : List Text} (hwords : ∀ w ∈ words, w ≠ [] ∧ ∀ c ∈ w, Plain c)
    (h : Finds text found) (hapart : Apart text) :
    Finds (spaced words ++ text) (words ++ found) := by
  induction words with
  | nil => exact h
  | cons w words ih =>
    obtain ⟨hw, hrest⟩ := List.forall_mem_cons.mp hwords
    have hword := (ih hrest).word (fun c hc => .inl (apart_spaced words hapart c hc)) hw.1 hw.2
    simpa [SearchQuery.spaced] using hword.blank

end

/-- The texts of a phrase, of the word that touches it and of the words behind. -/
def Phrase.found (p : Phrase) : List Text :=
  (quoteMark :: (p.content ++ [quoteMark])) :: ((if p.attached = [] then [] else [p.attached]) ++ p.words)

theorem finds_phrases {phrases : List Phrase} (h : ∀ p ∈ phrases, p.Sound Plain) :
    Finds (phrases.flatMap Phrase.text) (phrases.flatMap Phrase.found) ∧
    Finds (phrases.flatMap Phrase.text).tail (phrases.flatMap Phrase.found) := by
  induction phrases with
  | nil => exact ⟨finds_nil, finds_nil⟩
  | cons p phrases ih =>
    obtain ⟨hp, hrest⟩ := List.forall_mem_cons.mp h
    have hwords := Finds.spaced hp.words (ih hrest).1 (apart_phrases phrases)
    have hattached : Finds (p.attached ++ (spaced p.words ++ phrases.flatMap Phrase.text))
        ((if p.attached = [] then [] else [p.attached]) ++ (p.words ++ phrases.flatMap Phrase.found)) := by
      split
      · rename_i hempty
        rw [hempty]
        exact hwords
      · rename_i hne
        exact hwords.word (fun c hc => .inl (apart_spaced p.words (apart_phrases phrases) c hc)) hne hp.attached
    have hquoted := hattached.quoted hp.content
    have htail : Finds ((p :: phrases).flatMap Phrase.text).tail ((p :: phrases).flatMap Phrase.found) := by
      simpa [Phrase.text, Phrase.found] using hquoted
    exact ⟨htail.blank, htail⟩

theorem finditer_layout {first : List Text} {phrases : List Phrase} (hfirst : ∀ w ∈ first, w ≠ [] ∧ ∀ c ∈ w, Plain c)
    (h : ∀ p ∈ phrases, p.Sound Plain) :
    (finditer agentTokenRe (layout first phrases).tail).map Match.text = first ++ phrases.flatMap Phrase.found := by
  have hfinds : Finds (layout first phrases).tail (first ++ phrases.flatMap Phrase.found) := by
    cases first with
    | nil => exact (finds_phrases h).2
    | cons w first =>
      obtain ⟨hw, hmore⟩ := List.forall_mem_cons.mp hfirst
      have hrest := Finds.spaced hmore (finds_phrases h).1 (apart_phrases phrases)
      have hword := hrest.word (fun c hc => .inl (apart_spaced first (apart_phrases phrases) c hc)) hw.1 hw.2
      simpa [layout, SearchQuery.spaced] using hword
  exact hfinds _ [] (Nat.le_refl _)

/-! ## What a match leaves -/

/-- A bareword of the reading for agents. -/
structure AgentWord (u : Unicode) (w : Text) : Prop where
  nonempty : w ≠ []
  plain : ∀ c ∈ w, Plain c
  safe : ∀ c ∈ w, c ≠ '*' → SafeChar u c
  star : '*' ∈ w → ∃ stem, w = stem ++ ['*'] ∧ '*' ∉ stem ∧ 2 ≤ stem.countP u.isAlnum ∧ stem ∉ booleanOperators

/-- A phrase with its quotes, or a bareword. -/
def AgentToken (u : Unicode) (token : Text) : Prop :=
  (∃ content, quoteMark ∉ content ∧ token = quoteMark :: (content ++ [quoteMark])) ∨ AgentWord u token

def tokenKind (token : Text) : Option Text := if token.head? = some quoteMark then none else some token

section

variable {u : Unicode} {query : Text}

variable {w : Text} {tokens : List Text}

theorem tokenKind_word (h : ∀ c ∈ w, Plain c) : tokenKind w = some w := by
  refine if_neg fun hhead => ?_
  exact (h quoteMark (List.mem_of_mem_head? hhead)).2 rfl

theorem agentSafeChar_blank (u : Unicode) : agentSafeChar u ' ' = ' ' := by
  rw [agentSafeChar, if_neg (by decide), fts5SafeChar_blank]

theorem agentSafeChar_ne_quote (u : Unicode) : ∀ d, d ≠ quoteMark → agentSafeChar u d ≠ quoteMark := by
  intro d hd
  rw [agentSafeChar]
  split
  · exact hd
  · exact fts5SafeChar_ne_quote u d hd

/-- A character that is no star came through as it does in the default reading. -/
theorem mapped_agent {c : Char} (h : Mapped (agentSafeChar u) c) (hstar : c ≠ '*') : SafeChar u c := by
  obtain ⟨hspace, d, hd, he⟩ := h
  rw [agentSafeChar] at he
  split at he
  · rename_i hdstar
    exact absurd (he.trans hdstar) hstar
  · exact mapped_safe ⟨hspace, d, hd, he⟩

theorem lowerOperator_no_star (h : '*' ∉ w) : '*' ∉ lowerOperator w := by
  intro hin
  obtain hin | hin := lowerOperator_chars hin
  · exact h hin
  · exact absurd hin (by decide)

theorem countP_lowerOperator (hu : u.Ascii) (h : 2 ≤ w.countP u.isAlnum) : 2 ≤ (lowerOperator w).countP u.isAlnum := by
  rw [lowerOperator]
  split
  · rename_i hop
    have hlow : ∀ op ∈ booleanOperators, 2 ≤ (lower op).length ∧
        ((lower op).all fun c => decide (c.toNat < 128 ∧ (c.isAlpha || c.isDigit) = true)) = true := by decide +kernel
    obtain ⟨hlen, hplain⟩ := hlow w hop
    have hletters := forall_mem_of_all hplain
    have hall : (lower w).countP u.isAlnum = (lower w).length :=
      List.countP_eq_length.mpr fun c hc => (hu.alnum c (hletters c hc).1).trans (hletters c hc).2
    rw [hall]
    exact hlen
  · exact h

/-- A token with a star at its end, and none before. -/
theorem stem_of_star {token : Text} (hlast : token.getLast? = some '*') (hcount : token.count '*' = 1) :
    token = token.dropLast ++ ['*'] ∧ '*' ∉ token.dropLast := by
  have hsame : token = token.dropLast ++ ['*'] := (List.dropLast_append_getLast? _ hlast).symm
  refine ⟨hsame, fun hin => ?_⟩
  have hpos := List.count_pos_iff.mpr hin
  rw [hsame, List.count_append, List.count_singleton_self] at hcount
  omega

/-- Every token of a mapped word is an agent word. -/
theorem agentTokens_word (hu : u.Ascii) (hw : w ≠ [] ∧ ∀ c ∈ w, Mapped (agentSafeChar u) c) :
    ∀ token ∈ agentTokens u w, AgentWord u token := by
  have hplain : ∀ c ∈ w, Plain c := fun c hc => mapped_plain (agentSafeChar_ne_quote u) (hw.2 c hc)
  have hhead : w.head? ≠ some quoteMark := fun h => (hplain _ (List.mem_of_mem_head? h)).2 rfl
  intro token htoken
  rw [agentTokens, if_neg hhead] at htoken
  split at htoken
  · -- a prefix of a term
    rename_i hstar
    obtain rfl := List.mem_singleton.mp htoken
    obtain ⟨hsame, hno⟩ := stem_of_star hstar.1 hstar.2.1
    have hin : ∀ c ∈ w.dropLast, c ∈ w := fun c hc => List.mem_of_mem_dropLast hc
    have hstem : ∀ c ∈ lowerOperator w.dropLast, SafeChar u c :=
      lowerOperator_forall (letters_safe hu) fun c hc => mapped_agent (hw.2 c (hin c hc)) fun he => hno (he ▸ hc)
    have hstemPlain : ∀ c ∈ lowerOperator w.dropLast, Plain c :=
      lowerOperator_forall letters_plain fun c hc => hplain c (hin c hc)
    refine ⟨by simp, fun c hc => ?_, fun c hc hne => ?_,
      fun _ => ⟨_, rfl, lowerOperator_no_star hno, countP_lowerOperator hu hstar.2.2,
      lowerOperator_not_operator _⟩⟩
    · obtain hc | hc := List.mem_append.mp hc
      · exact hstemPlain c hc
      · obtain rfl := List.mem_singleton.mp hc
        exact ⟨rfl, by decide⟩
    · obtain hc | hc := List.mem_append.mp hc
      · exact hstem c hc
      · exact absurd (List.mem_singleton.mp hc) hne
  · -- the stars are taken for spaces
    obtain ⟨hne, hchars⟩ := split_isWord htoken
    have horigin : ∀ c ∈ token, c ∈ w ∧ c ≠ '*' := by
      intro c hc
      obtain ⟨hin, hspace⟩ := hchars c hc
      obtain ⟨d, hd, rfl⟩ := List.mem_map.mp hin
      split at hspace
      · cases hspace
      · rename_i hd'
        rw [if_neg hd']
        exact ⟨hd, hd'⟩
    exact ⟨hne, fun c hc => hplain c (horigin c hc).1,
      fun c hc _ => mapped_agent (hw.2 c (horigin c hc).1) (horigin c hc).2,
      fun hin => absurd rfl (horigin _ hin).2⟩

theorem agentTokens_phrase (u : Unicode) (content : Text) : agentTokens u
    (quoteMark :: (content ++ [quoteMark])) = [quoteMark :: (content ++ [quoteMark])] := by
  rw [agentTokens]
  exact if_pos rfl

/-! ## The filter -/

theorem lowerPrefixOperator_mem_infixOperators {t : Text} : lowerPrefixOperator t ∈ infixOperators ↔
    t ∈ infixOperators := by
  have hlow : ∀ op ∈ [['A', 'N', 'D'], ['N', 'E', 'A', 'R']], lower op ∉ infixOperators ∧
      op ∉ infixOperators := by decide +kernel
  rw [lowerPrefixOperator]
  split
  · rename_i hop
    exact iff_of_false (hlow t hop).1 (hlow t hop).2
  · rfl

/-- An infix operator that is kept stands between two tokens that are none. -/
theorem keepInfix_placed (tokens : List Text) :
    ∀ (before : Option Text) (front : List Text) (t : Text) (after : List Text),
    keepInfix before tokens = front ++ t :: after → t ∈ infixOperators →
      (∃ a, (front.getLast? = some a ∨ front = [] ∧ before = some a) ∧ a ∉ infixOperators) ∧ ∃ b,
      after.head? = some b ∧ b ∉ infixOperators := by
  induction tokens with
  | nil =>
    intro before front t after h
    simp [keepInfix] at h
  | cons x rest ih =>
    intro before front t after h ht
    rw [keepInfix] at h
    split at h
    · rename_i hkept
      cases front with
      | nil =>
        obtain ⟨rfl, rfl⟩ := List.cons.inj h
        have hx := lowerPrefixOperator_mem_infixOperators.mp ht
        obtain ⟨hbefore, hnext⟩ := hkept.resolve_left (not_not.mpr hx)
        obtain ⟨a, ha, hnot⟩ := (Option.any_eq_true _ _).mp hbefore
        obtain ⟨n, hn, hnot'⟩ := (Option.any_eq_true _ _).mp hnext
        refine ⟨⟨a, .inr ⟨rfl, ha⟩, of_decide_eq_true hnot⟩, lowerPrefixOperator n, ?_, ?_⟩
        · cases rest with
          | nil => cases hn
          | cons m rest =>
            obtain rfl := Option.some.inj hn
            rw [keepInfix, if_pos (.inl (of_decide_eq_true hnot')), List.head?_cons]
        · rw [lowerPrefixOperator_mem_infixOperators]
          exact of_decide_eq_true hnot'
      | cons y front =>
        obtain ⟨rfl, hrest⟩ := List.cons.inj h
        obtain ⟨⟨a, ha, hnot⟩, hafter⟩ := ih (some x) front t after hrest ht
        refine ⟨?_, hafter⟩
        obtain ha | ⟨rfl, ha⟩ := ha
        · refine ⟨a, .inl ?_, hnot⟩
          rw [List.getLast?_cons, ha]
          rfl
        · obtain rfl := Option.some.inj ha
          exact ⟨lowerPrefixOperator x, .inl rfl, fun hin => hnot (lowerPrefixOperator_mem_infixOperators.mp hin)⟩
    · rename_i hdropped
      obtain ⟨⟨a, ha, hnot⟩, hafter⟩ := ih (some x) front t after h ht
      refine ⟨⟨a, .inl ?_, hnot⟩, hafter⟩
      obtain ha | ⟨-, ha⟩ := ha
      · exact ha
      · obtain rfl := Option.some.inj ha
        exact absurd (.inl hnot) hdropped

theorem mem_keepInfix (tokens : List Text) : ∀ {before : Option Text} {t : Text},
    t ∈ keepInfix before tokens → ∃ x ∈ tokens, t = lowerPrefixOperator x := by
  induction tokens with
  | nil => exact fun h => absurd h List.not_mem_nil
  | cons x rest ih =>
    intro before t h
    rw [keepInfix] at h
    split at h
    · obtain rfl | h := List.mem_cons.mp h
      · exact ⟨x, List.mem_cons_self, rfl⟩
      · obtain ⟨y, hy, rfl⟩ := ih h
        exact ⟨y, List.mem_cons_of_mem _ hy, rfl⟩
    · obtain ⟨y, hy, rfl⟩ := ih h
      exact ⟨y, List.mem_cons_of_mem _ hy, rfl⟩

theorem keepInfix_of_not_between (tokens : List Text) : ∀ {before : Option Text} {x : Text},
    x ∈ tokens → x ∉ infixOperators → keepInfix before tokens ≠ [] := by
  induction tokens with
  | nil => exact fun h => absurd h List.not_mem_nil
  | cons y rest ih =>
    intro before x hx hnot
    rw [keepInfix]
    split
    · exact List.cons_ne_nil _ _
    · rename_i hdropped
      obtain rfl | hx := List.mem_cons.mp hx
      · exact absurd (.inl hnot) hdropped
      · exact ih hx hnot

theorem lowerPrefixOperator_agentToken (hu : u.Ascii) {t : Text} (h : AgentToken u t) :
    AgentToken u (lowerPrefixOperator t) := by
  have hlow : ∀ op ∈ [['A', 'N', 'D'], ['N', 'E', 'A', 'R']], lower op ≠ [] ∧
      ((lower op).all fun c => decide (c ∈ ['a', 'n', 'd', 'o', 'r', 't', 'e'])) = true := by
    decide +kernel
  rw [lowerPrefixOperator]
  split
  · rename_i hop
    obtain ⟨hne, hplain⟩ := hlow t hop
    have hletters := forall_mem_of_all hplain
    refine .inr ⟨hne, fun c hc => letters_plain c (hletters c hc),
      fun c hc _ => letters_safe hu c (hletters c hc), fun hin => ?_⟩
    exact absurd (hletters _ hin) (by decide)
  · exact h

/-! ## What the tokens read as -/

theorem AgentToken.nonempty {t : Text} (h : AgentToken u t) : t ≠ [] := by
  obtain ⟨content, -, rfl⟩ | h := h
  · exact List.cons_ne_nil _ _
  · exact h.nonempty

theorem lexes_tokens (h : ∀ t ∈ tokens, AgentToken u t) : Lexes ([' '].intercalate tokens) (tokens.map tokenKind) := by
  have hspaced : Lexes (spaced tokens) (tokens.map tokenKind) := by
    induction tokens with
    | nil => exact ⟨[], rfl, rfl⟩
    | cons t tokens ih =>
      obtain ⟨ht, hrest⟩ := List.forall_mem_cons.mp h
      have hapart : Apart (spaced tokens) := by
        have hsame := @apart_spaced [] tokens (fun c hc => nomatch hc)
        rwa [List.append_nil] at hsame
      obtain ⟨content, hcontent, rfl⟩ | hword := ht
      · have hphrase := @Lexes.phrase _ _ (ih hrest) hapart content [] hcontent (fun c hc => absurd hc List.not_mem_nil)
        simpa [spaced, tokenKind] using hphrase
      · have hlex := (ih hrest).word hapart hword.nonempty hword.plain
        simpa [spaced, tokenKind_word hword.plain] using hlex
  rw [intercalate_eq_tail]
  refine hspaced.tail fun c hc => ?_
  cases tokens with
  | nil => cases hc
  | cons t tokens => exact (Option.some.inj hc).symm

/-- A token is an operator where it is one of the words. -/
theorem tokenKind_operator {t : Text} (h : AgentToken u t) : IsOperator (tokenKind t) ↔ t ∈ booleanOperators := by
  have hplain : ∀ op ∈ booleanOperators, quoteMark ∉ op ∧ '*' ∉ op := by decide
  obtain ⟨content, -, rfl⟩ | hword := h
  · refine iff_of_false id fun hop => (hplain _ hop).1 List.mem_cons_self
  · rw [tokenKind_word hword.plain, IsOperator]
    by_cases hstar : '*' ∈ t
    · obtain ⟨stem, rfl, hno, -, hnot⟩ := hword.star hstar
      have hstem : ((stem ++ ['*']).takeWhile fun c => c ≠ '*') = stem := by
        have hall : ∀ c ∈ stem, decide (c ≠ '*') = true := by
          intro c hc
          rw [decide_eq_true_eq]
          rintro rfl
          exact hno hc
        rw [List.takeWhile_append_of_pos hall]
        simp
      rw [hstem]
      exact iff_of_false hnot fun hop => (hplain _ hop).2 hstar
    · rw [takeWhile_of_no_star hstar]

theorem infix_of_operator {x : Text} (h : lowerPrefixOperator x ∈ booleanOperators) :
    lowerPrefixOperator x ∈ infixOperators := by
  have hlow : ∀ op ∈ [['A', 'N', 'D'], ['N', 'E', 'A', 'R']], lower op ∉ booleanOperators := by decide +kernel
  have hall : ∀ op ∈ booleanOperators, op ∉ [['A', 'N', 'D'], ['N', 'E', 'A', 'R']] → op ∈ infixOperators := by decide
  rw [lowerPrefixOperator] at h ⊢
  split at h
  · rename_i hop
    exact absurd h (hlow x hop)
  · rename_i hop
    rw [if_neg hop]
    exact hall x h hop

/-- Agent tokens joined by blanks are an agent-safe query. -/
theorem agentSafe_tokens (hu : u.Ascii) (h : ∀ t ∈ tokens, AgentToken u t) :
    AgentSafe u ([' '].intercalate (keepInfix none tokens)) := by
  have hkept : ∀ t ∈ keepInfix none tokens, AgentToken u t ∧ (t ∈ booleanOperators → t ∈ infixOperators) := by
    intro t ht
    obtain ⟨x, hx, rfl⟩ := mem_keepInfix tokens ht
    exact ⟨lowerPrefixOperator_agentToken hu (h x hx), infix_of_operator⟩
  obtain ⟨read, hread, hkinds⟩ := lexes_tokens fun t ht => (hkept t ht).1
  refine ⟨read, hread, fun token htoken w hw => ?_, ?_⟩
  · have hin : some w ∈ (keepInfix none tokens).map tokenKind := by
      rw [← hkinds, ← hw]
      exact List.mem_map_of_mem htoken
    obtain ⟨t, ht, hkind⟩ := List.mem_map.mp hin
    obtain ⟨content, -, rfl⟩ | hword := (hkept t ht).1
    · cases hkind
    · rw [tokenKind_word hword.plain] at hkind
      obtain rfl := Option.some.inj hkind
      refine ⟨hword.safe, fun hstar => ?_⟩
      obtain ⟨stem, hsame, hno, hcount, -⟩ := hword.star hstar
      exact ⟨stem, hsame, hno, hcount⟩
  · have hplaced : WellPlaced (fun t : Text => IsOperator (tokenKind t))
        (fun t => IsInfix (tokenKind t)) (keepInfix none tokens) := by
      intro front t after hsplit hop
      have hmem : ∀ x ∈ front ++ t :: after, AgentToken u x ∧
          (x ∈ booleanOperators → x ∈ infixOperators) := fun x hx => hkept x (hsplit ▸ hx)
      obtain ⟨htoken, hin⟩ := hmem t (by simp)
      have hbetween := hin ((tokenKind_operator htoken).mp hop)
      obtain ⟨⟨a, ha, hnot⟩, b, hb, hnot'⟩ := keepInfix_placed tokens none front t after hsplit hbetween
      have ha := ha.resolve_right fun he => by cases he.2
      obtain ⟨hatoken, hain⟩ := hmem a (List.mem_append_left _ (List.mem_of_getLast? ha))
      obtain ⟨hbtoken, hbin⟩ := hmem b (List.mem_append_right _ (List.mem_cons_of_mem _ (List.mem_of_mem_head? hb)))
      refine ⟨?_, ⟨a, ha, fun he => hnot (hain ((tokenKind_operator hatoken).mp he))⟩, b, hb,
        fun he => hnot' (hbin ((tokenKind_operator hbtoken).mp he))⟩
      obtain ⟨content, -, rfl⟩ | hword := htoken
      · exact hop.elim
      · rw [tokenKind_word hword.plain]
        exact hbetween
    have hkindsPlaced : WellPlaced IsOperator IsInfix ((keepInfix none tokens).map tokenKind) :=
      (wellPlaced_map (fun _ _ => Iff.rfl) fun _ _ _ => Iff.rfl).mpr hplaced
    rw [← hkinds] at hkindsPlaced
    exact (wellPlaced_map (fun _ _ => Iff.rfl) fun _ _ _ => Iff.rfl).mp hkindsPlaced

/-- The tokens of a query that is not read as prose. -/
theorem found_agentTokens (hu : u.Ascii) (query : Text) :
    (∀ t ∈ ((finditer agentTokenRe (sanitizeQuery query (agentSafeChar u))).map Match.text).flatMap (agentTokens u),
      AgentToken u t) ∧
      (keepInfix none (((finditer agentTokenRe (sanitizeQuery query (agentSafeChar u))).map
      Match.text).flatMap (agentTokens u)) = [] →
        (scan none query).2 = []) := by
  have hplain : ∀ c, Mapped (agentSafeChar u) c → Plain c := fun c => mapped_plain (agentSafeChar_ne_quote u)
  have hfirst := firstWords_sound (agentSafeChar u) query
  have hphrases := phrases_sound (agentSafeChar u) query
  have hfound : (finditer agentTokenRe (sanitizeQuery query (agentSafeChar u))).map Match.text =
      firstWords (agentSafeChar u) query ++ (phrases (agentSafeChar u) query).flatMap Phrase.found := by
    rw [sanitizeQuery_eq (agentSafeChar_blank u)]
    exact finditer_layout (fun w hw => ⟨(hfirst w hw).1, fun c hc => hplain c ((hfirst w hw).2 c hc)⟩)
      fun p hp => (hphrases p hp).imp hplain
  rw [hfound]
  refine ⟨fun t ht => ?_, fun hnil => ?_⟩
  · obtain ⟨token, htoken, ht⟩ := List.mem_flatMap.mp ht
    obtain htoken | htoken := List.mem_append.mp htoken
    · exact .inr (agentTokens_word hu (hfirst token htoken) t ht)
    · obtain ⟨p, hp, htoken⟩ := List.mem_flatMap.mp htoken
      rw [Phrase.found, List.mem_cons, List.mem_append] at htoken
      obtain rfl | htoken | htoken := htoken
      · rw [agentTokens_phrase] at ht
        exact .inl ⟨p.content, (hphrases p hp).content, List.mem_singleton.mp ht⟩
      · split at htoken
        · cases htoken
        · rename_i hne
          obtain rfl := List.mem_singleton.mp htoken
          exact .inr (agentTokens_word hu ⟨hne, (hphrases p hp).attached⟩ t ht)
      · exact .inr (agentTokens_word hu ((hphrases p hp).words token htoken) t ht)
  · by_contra hne
    obtain ⟨q, rest, hq⟩ := List.exists_cons_of_ne_nil hne
    -- a phrase is a token that is no operator, so it would have been kept
    have hin : phraseOf (agentSafeChar u) q ∈ phrases (agentSafeChar u) query := by
      rw [phrases, hq]
      exact List.mem_cons_self
    have hplainOperators : ∀ op ∈ infixOperators, quoteMark ∉ op := by decide
    refine keepInfix_of_not_between _ (x := quoteMark :: ((phraseOf (agentSafeChar u) q).content ++ [quoteMark])) ?_
      (fun hop => hplainOperators _ hop List.mem_cons_self) hnil
    refine List.mem_flatMap.mpr ⟨_, List.mem_append_right _ (List.mem_flatMap.mpr ⟨_, hin, List.mem_cons_self⟩), ?_⟩
    rw [agentTokens_phrase]
    exact List.mem_singleton_self _

theorem intercalate_eq_nil (h : ∀ t ∈ tokens, t ≠ []) (hnil : [' '].intercalate tokens = []) : tokens = [] := by
  cases tokens with
  | nil => rfl
  | cons t tokens =>
    rw [intercalate_eq_tail, spaced, List.flatMap_cons, List.cons_append, List.tail_cons,
      List.append_eq_nil_iff] at hnil
    exact absurd hnil.1 (h t List.mem_cons_self)

/-- A query that is not read as prose is safe for an agent. -/
theorem agentSafe_of_not_prose (hu : u.Ascii) (hprose : readsAsProse query = false) :
    AgentSafe u (sanitizeAgentFts5Query u query (sanitizeQuery query (fts5SafeChar u))) := by
  obtain ⟨htokens, hphrases⟩ := found_agentTokens hu query
  rw [sanitizeAgentFts5Query, hprose, if_neg (by decide)]
  simp only
  split
  · rename_i hempty
    -- nothing is kept, so there is no phrase and no operator is exposed
    have hnil := intercalate_eq_nil (fun t ht => by
      obtain ⟨x, hx, rfl⟩ := mem_keepInfix _ ht
      exact (lowerPrefixOperator_agentToken hu (htokens x hx)).nonempty) hempty
    refine (agentSafe_prose_iff hu query).mpr fun front item after hsplit hexposed => ?_
    have hitem : item ∈ items (fts5SafeChar u) query := by
      rw [hsplit]
      simp
    rw [items, phrases, hphrases hnil, List.map_nil, phraseItems, List.append_nil] at hitem
    obtain ⟨w, -, rfl⟩ := List.mem_map.mp hitem
    exact hexposed.elim
  · exact agentSafe_tokens hu htokens

/-- An operator word is exposed where an empty phrase stands before it and a phrase behind it, or
where it touches the last phrase. The default reading stays in the safe grammar exactly where none
is exposed, and the reading for agents exactly where the query is not read as prose or the exposed
operators are infix and well placed. -/
theorem sanitized_safe_iff (hu : u.Ascii) (query : Text) :
    (DefaultSafe u (sanitizeFts5Query u query false false) ↔
      ∀ item ∈ items (fts5SafeChar u) (u.nfc query), ¬ item.ExposedOperator) ∧
    ∀ allowOperators, AgentSafe u (sanitizeFts5Query u query allowOperators true) ↔
      readsAsProse (u.nfc query) = false ∨ WellPlaced Item.ExposedOperator Item.IsInfix
      (items (fts5SafeChar u) (u.nfc query)) := by
  refine ⟨defaultSafe_iff hu (u.nfc query), fun allowOperators => ?_⟩
  have hresult : sanitizeFts5Query u query allowOperators true =
      sanitizeAgentFts5Query u (u.nfc query) (sanitizeQuery (u.nfc query) (fts5SafeChar u)) := rfl
  rw [hresult]
  cases hprose : readsAsProse (u.nfc query) with
  | false => exact iff_of_true (agentSafe_of_not_prose hu hprose) (.inl rfl)
  | true =>
    rw [sanitizeAgentFts5Query, hprose, if_pos rfl, agentSafe_prose_iff hu]
    simp

end

/-! ## Queries in ASCII -/

def asciiTables : Unicode := ⟨id, fun c => c.isAlpha || c.isDigit, fun _ => false⟩

theorem asciiTables_ascii : asciiTables.Ascii := ⟨fun _ _ => rfl, fun _ _ => rfl⟩

/-- An operator between two terms of a phrase and a prefix. -/
def catsQuery : Text := ['c', 'a', 't', 's', ' ', 'O', 'R', ' ', quoteMark, 'b', 'i', 'g', ' ', 'd',
    'o', 'g', quoteMark, ' ', 'f', 'u', 'r', '*']

theorem sanitized_safe_cats : DefaultSafe asciiTables (sanitizeFts5Query asciiTables catsQuery false false) ∧
    AgentSafe asciiTables (sanitizeFts5Query asciiTables catsQuery false true) := by
  obtain ⟨hdefault, hagent⟩ := sanitized_safe_iff asciiTables_ascii catsQuery
  have hitems : items (fts5SafeChar asciiTables) catsQuery =
      [.word ['c', 'a', 't', 's'] false, .word ['O', 'R'] false, .phrase, .word ['f', 'u', 'r'] false] := by
        decide +kernel
  have hprose : readsAsProse catsQuery = false := by decide +kernel
  refine ⟨hdefault.mpr ?_, (hagent false).mpr (.inl hprose)⟩
  show ∀ item ∈ items (fts5SafeChar asciiTables) catsQuery, ¬ item.ExposedOperator
  rw [hitems]
  intro item hitem
  simp only [List.mem_cons, List.not_mem_nil, or_false] at hitem
  obtain rfl | rfl | rfl | rfl := hitem <;> exact id

/-- An empty phrase, an operator and a phrase, with a parenthesis behind. -/
def emptyPhraseQuery : Text := [quoteMark, quoteMark, ' ', 'A', 'N', 'D', ' ', quoteMark, 'x', quoteMark, ' ', '(']

/-- The operator stays as it is in both readings. -/
theorem empty_phrase_keeps_and :
    ¬ DefaultSafe asciiTables (sanitizeFts5Query asciiTables emptyPhraseQuery false false) ∧
    ¬ AgentSafe asciiTables (sanitizeFts5Query asciiTables emptyPhraseQuery false true) := by
  have hlex : lex (sanitizeFts5Query asciiTables emptyPhraseQuery false false) =
    some [.string [], .bareword ['A', 'N', 'D'], .string ['x']] ∧
      lex (sanitizeFts5Query asciiTables emptyPhraseQuery false true) =
        some [.string [], .bareword ['A', 'N', 'D'], .string ['x']] := by
    decide +kernel
  constructor
  · rintro ⟨tokens, htokens, hsafe⟩
    obtain rfl := Option.some.inj (hlex.1.symm.trans htokens)
    exact (hsafe (.bareword ['A', 'N', 'D']) (by simp) _ rfl).2
      (show ['A', 'N', 'D'].takeWhile (fun c => c ≠ '*') ∈ booleanOperators by decide)
  · rintro ⟨tokens, htokens, -, hplaced⟩
    obtain rfl := Option.some.inj (hlex.2.symm.trans htokens)
    have hoperator : ['A', 'N', 'D'].takeWhile (fun c => c ≠ '*') ∈ booleanOperators := by decide
    have hbetween : ['A', 'N', 'D'] ∈ infixOperators :=
      (hplaced [.string []] (.bareword ['A', 'N', 'D']) [.string ['x']] rfl hoperator).1
    exact absurd hbetween (by decide)

end SearchQuery
