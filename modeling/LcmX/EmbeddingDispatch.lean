import LcmX.EmbeddingFates

/-!
# The transform and the dispatch check

Both look for the same residual patterns, so they differ only in the canonical form of
the placeholders. The openers of the text decide whether the transformed text has it.
-/
namespace EmbeddingPrivacy

open Regex PyText Ingest Sensitive

/-! ## One pattern -/

/-- What stands behind the closing bracket has no part in a placeholder. -/
theorem Placed.moved {w x : List Char} (P : Placed (w ++ ']' :: x)) (hw : ']' ∉ w) (y : List Char) :
    ∃ Q : Placed (w ++ ']' :: y), Q.name = P.name ∧ Q.written = P.written := by
  obtain ⟨front, hfront, hnone⟩ := P.written_first
  have hsplit : front ++ ']' :: P.rest = w ++ ']' :: x := by
    have htext := P.text_eq
    rw [hfront] at htext
    simpa using htext.symm
  obtain ⟨rfl, -⟩ := first_split hnone hw hsplit
  have hparts : front = P.header ++ (P.name ++ P.junk) := by
    have := hfront.symm
    rw [Placed.written, ← List.append_assoc P.name, ← List.append_assoc, List.append_cancel_right_eq] at this
    exact this
  exact ⟨⟨P.header, P.name, P.junk, y, (congrArg (· ++ ']' :: y) hparts).trans (by simp),
    P.isHeader, P.named, P.stops, P.closes⟩,
    rfl, rfl⟩

theorem settled_congr {w : List Char} (hw : ']' ∉ w) {x y : List Char}
    (h : Settled (w ++ ']' :: x)) : Settled (w ++ ']' :: y) := by
  intro P
  obtain ⟨Q, hname, hwritten⟩ := P.moved hw x
  rw [← hwritten, h Q, Placed.canonical, Placed.canonical, hname]

theorem settled_of_open {v : List Char} (h : ']' ∉ v) : Settled v := fun P => absurd (by rw [P.text]; simp) h

/-- A placeholder with an opening bracket in it is not as it should be. -/
theorem not_settled_of_bracket {o t body x : List Char} (ho : IsOpener o) (ht : ']' ∉ t) (hbody : ']' ∉ body) :
    ¬ Settled (o ++ (t ++ '[' :: (body ++ ']' :: x))) := by
  intro hsettled
  have hplaced : Nonempty (Placed (o ++ (t ++ '[' :: (body ++ ']' :: x)))) := ho.placed (by simp)
  obtain ⟨P⟩ := hplaced
  obtain ⟨o', rfl, -, hclose⟩ := ho.brackets
  obtain ⟨front, hfront, hnone⟩ := P.written_first
  obtain ⟨canonical, hcanonical, hopen, -⟩ := embeddingPlaceholder_brackets (lower (strip P.name))
  have hsplit : front ++ ']' :: P.rest = ('[' :: o' ++ (t ++ '[' :: body)) ++ ']' :: x := by
    have htext := P.text_eq
    rw [hfront] at htext
    simpa using htext.symm
  obtain ⟨hsame, -⟩ := first_split hnone (by simp [hclose, ht, hbody]) hsplit
  have hwritten : P.written = P.canonical := hsettled P
  rw [hfront, hsame, Placed.canonical, hcanonical] at hwritten
  have heq : o' ++ (t ++ '[' :: body) ++ [']'] = canonical ++ [']'] := (List.cons.inj hwritten).2
  exact hopen (List.append_cancel_right heq ▸ by simp)

theorem settled_redacted {name : PatternName} {o : List Char} (ho : IsOpener o) (b : List Part) :
    Settled (o ++ redacted (placeholderFor name) b) ↔ strikes b = false ∧ Settled (o ++ partsText b) := by
  have hclose : ∀ {t : List Char}, ']' ∉ t → ']' ∉ o ++ t := by
    intro t ht hmem
    obtain ⟨o', rfl, -, ho'⟩ := ho.brackets
    rcases List.mem_append.mp hmem with hmem | hmem
    · exact (List.mem_cons.mp hmem).elim (fun he => absurd he (by decide)) ho'
    · exact ht hmem
  rcases strikes_cases b with ⟨hs, t, w, rest, rfl, ht⟩ | ⟨hs, t, rfl, ht⟩ | ⟨hs, t, rest, rfl, ht⟩
  · refine iff_of_false ?_ fun h => ?_
    · obtain ⟨body, hbody, -, hnone⟩ := embeddingPlaceholder_brackets name.text
      have hinserted : redacted (placeholderFor name) (kept t ++ .inr w :: rest) =
          t ++ '[' :: (body ++ ']' :: redacted (placeholderFor name) rest) := by
        rw [redacted_append, redacted_kept, redacted_inr]
        refine congrArg (t ++ ·) (congrArg (· ++ _) hbody |>.trans ?_)
        simp
      rw [hinserted]
      exact not_settled_of_bracket ho ht hnone
    · rw [hs] at h
      exact absurd h.1 (by decide)
  · rw [redacted_kept, partsText_kept]
    exact ⟨fun h => ⟨hs, h⟩, And.right⟩
  · rw [redacted_append, redacted_kept, partsText_append, partsText_kept, redacted_inl, partsText_inl]
    rw [← List.append_assoc, ← List.append_assoc]
    exact ⟨fun h => ⟨hs, settled_congr (hclose ht) h⟩, fun h => settled_congr (hclose ht) h.2⟩

/-- A placeholder that is just inserted: its name goes on to the bracket. -/
def IsClean (rest : List Char) : Prop := ∃ x after, rest = x ++ ']' :: after ∧ ∀ c ∈ x, isNameChar c = true

theorem patternName_written (name : PatternName) : IsWrittenName name.text ∧ placeholderMetadata name.text = name.text ∧
    name.text ≠ [] ∧ (∀ c ∈ name.text, isNameChar c = true) ∧ name.text.getLast? ≠ some '-' := by
  cases name <;> exact ⟨⟨.inr (forall_mem_of_all (by decide)), by decide, by decide⟩, by decide +kernel, by decide,
    forall_mem_of_all (by decide), by decide⟩

theorem inserted_opener {name : PatternName} {o rest tail : List Char} (ho : IsOpener o)
    (h : embeddingPlaceholder name.text ++ tail = o ++ rest) : Settled (o ++ rest) ∧ IsClean rest := by
  obtain ⟨his, hmetadata, hne, hchars, hlast⟩ := patternName_written name
  have hwhole := embeddingPlaceholder_eq name.text
  rw [hmetadata] at hwhole
  constructor
  · intro P
    have hwritten := (P.front_written h).1
    obtain ⟨hname, hsame, hiff⟩ := P.written_iff isHeader_embedding his (hwritten.trans hwhole)
    rw [hsame, Placed.canonical, embeddingPlaceholder_eq, hiff.mpr (hname ▸ hlast)]
  · obtain ⟨header, c, rfl, hheader, -⟩ := ho
    rw [hwhole, List.append_assoc, List.append_assoc, List.append_assoc header] at h
    have hsame := header_unique isHeader_embedding hheader h
    rw [hsame, List.append_cancel_left_eq] at h
    obtain ⟨d, more, hmore⟩ := List.exists_cons_of_ne_nil hne
    rw [hmore] at h hchars
    obtain ⟨-, hrest⟩ := List.cons.inj h
    exact ⟨more, tail, hrest.symm, fun e he => hchars e (List.mem_cons_of_mem _ he)⟩

/-- One pattern: the openers of the redacted text against those that it keeps. -/
theorem redacted_step (name : PatternName) (ps : List Part) (later : List Char → Nat → Fate)
    (hlater : ∀ u o rest, redacted (placeholderFor name) ps = u ++ (o ++ rest) → IsOpener o →
      IsClean rest → later o u.length ≠ .struck) :
    (∀ u o rest, redacted (placeholderFor name) ps = u ++ (o ++ rest) → IsOpener o →
      Holds (later o u.length) (Settled (o ++ rest))) ↔
      ∀ a o b, ps = a ++ (kept o ++ b) → IsOpener o →
        Holds (later o (redacted (placeholderFor name) a).length) (strikes b = false ∧ Settled (o ++ partsText b)) := by
  constructor
  · intro hall a o b hps ho
    have hholds := hall (redacted (placeholderFor name) a) o (redacted (placeholderFor name) b) (by rw [hps]; simp) ho
    exact hholds.imp (settled_redacted ho b).mp
  · intro hall u o rest heq ho
    rcases opener_of_redacted ho heq with ⟨a, b, hps, rfl, rfl⟩ | ⟨a, w, b, hps, rfl⟩
    · exact (hall a o b hps ho).imp (settled_redacted ho b).mpr
    · have hinserted : embeddingPlaceholder name.text ++ redacted (placeholderFor name) b = o ++ rest := by
        rw [hps, redacted_append, List.append_cancel_left_eq] at heq
        exact heq
      obtain ⟨hsettled, hclean⟩ := inserted_opener ho hinserted
      have hne := hlater _ o rest heq ho hclean
      cases hfate : later o (redacted (placeholderFor name) a).length with
      | removed => trivial
      | struck => exact absurd hfate hne
      | intact => exact hsettled

/-- The openers of a text against the parts that keep them. -/
theorem holds_parts (name : PatternName) (ps : List Part) (later : List Char → Nat → Fate) :
    (∀ u o rest, partsText ps = u ++ (o ++ rest) → IsOpener o →
      Holds (fateIn (placeholderFor name) ps o u.length (later o)) (Settled (o ++ rest))) ↔
      ∀ a o b, ps = a ++ (kept o ++ b) → IsOpener o →
        Holds (later o (redacted (placeholderFor name) a).length) (strikes b = false ∧ Settled (o ++ partsText b)) := by
  constructor
  · intro hall a o b hps ho
    have hholds := hall (partsText a) o (partsText b) (by rw [hps]; simp) ho
    obtain ⟨c, rest, rfl⟩ := isOpener_ne_nil ho
    have hlocate : locate ps (partsText a).length = some (a, kept (c :: rest) ++ b) := hps ▸ locate_append a
    have hfront : kept (c :: rest) <+: kept (c :: rest) ++ b := List.prefix_append _ _
    have hdrop : (kept (c :: rest) ++ b).drop (c :: rest).length = b := List.drop_left' (by simp [kept])
    rw [fateIn, hlocate] at hholds
    simp only [hfront, hdrop, if_true] at hholds
    exact (holds_after _ _ _).mp hholds
  · intro hall u o rest heq ho
    rw [fateIn]
    split
    · trivial
    · next a b hlocate =>
      split
      · next hfront =>
        obtain ⟨b, rfl⟩ := hfront
        obtain ⟨rfl, hlen⟩ := locate_spec hlocate
        rw [partsText_append, partsText_append, partsText_kept] at heq
        obtain ⟨-, htail⟩ := List.append_inj heq hlen
        have hdrop : (kept o ++ b).drop o.length = b := List.drop_left' (by simp [kept])
        rw [hdrop, holds_after, ← (List.append_cancel_left_eq ..).mp htail]
        exact hall a o b rfl ho
      · trivial

/-! ## The run of the patterns -/

theorem not_name_of_labelEnd {c : Char} (h : isLabelEnd c = true) : isNameChar c = false := by
  have htable : ∀ n < 128, isLabelEnd (Char.ofNat n) = true → isNameChar (Char.ofNat n) = false := by decide +kernel
  by_cases hlow : c.toNat < 128
  · have hc := htable c.toNat hlow
    rw [Char.ofNat_toNat] at hc
    exact hc h
  · rw [Bool.eq_false_iff]
    intro hname
    -- the letters of a name outside of ASCII are no spaces
    have hcases : c.toNat = 0x17f ∨ c.toNat = 0x130 ∨ c.toNat = 0x131 ∨ c.toNat = 0x212a := by
      simp only [isNameChar, isAlnumIgnoringCase, Bool.or_eq_true, decide_eq_true_eq] at hname
      rcases hname with (((((h | h) | h) | h) | h) | rfl) | rfl
      · exact absurd (toNat_lt_of_alnum h) hlow
      · exact .inl h
      · exact .inr (.inl h)
      · exact .inr (.inr (.inl h))
      · exact .inr (.inr (.inr h))
      · exact absurd (by decide) hlow
      · exact absurd (by decide) hlow
    have hne : ∀ d : Char, d.toNat < 128 → c ≠ d := by
      rintro d hd rfl
      exact hlow hd
    simp only [isLabelEnd, isGapChar, isSpace, isQuote, isAssignment, hne '\\' (by decide),
      hne '"' (by decide), hne '\'' (by decide),
      hne ':' (by decide), hne '=' (by decide), decide_false, Bool.or_false] at h
    rcases hcases with h' | h' | h' | h' <;> rw [h'] at h <;> exact absurd h (by decide)

section

variable {h : Host} {name : PatternName}

theorem patternParts_facts (hname : name ≠ .privateKey) (text : List Char) :
    partsText (patternParts h.isWord name text) = text ∧ IsLabelled (patternParts h.isWord name text) := by
  rw [patternParts]
  cases hp : catalog h.isWord name with
  | none =>
    cases name with
    | privateKey => exact absurd rfl hname
    | _ => cases hp
  | some p => exact ⟨parts_text hp text, parts_labelled hp text⟩

theorem protectPattern_eq (text : List Char) :
    protectPattern h text name = redacted (placeholderFor name) (patternParts h.isWord name text) :=
  applySensitivePattern_eq h.isWord name _ text

variable {b : List Part} {o x w : List Char}

/-- No secret starts within the name of a placeholder. -/
theorem not_strikes_of_clean {a : List Part} (ho : IsOpener o) (hlabelled : IsLabelled (a ++ (kept o ++ b)))
    (hclean : IsClean (partsText b)) : ∃ x rest, b = kept x ++ .inl ']' :: rest ∧
    (∀ c ∈ x, isNameChar c = true) ∧ strikes b = false := by
  obtain ⟨x, after, hx, hall⟩ := hclean
  have hxnone : ']' ∉ x := fun hmem => (name_brackets (hall _ hmem)).2 rfl
  rcases strikes_cases b with ⟨-, t, w, rest, rfl, ht⟩ | ⟨-, t, rfl, ht⟩ | ⟨hs, t, rest, rfl, ht⟩
  · -- what stands before a secret is no character of a name
    obtain ⟨-, front, c, hfront, hc⟩ := hlabelled (a ++ (kept o ++ kept t)) w rest (by simp)
    have hmem : isNameChar c = true := by
      rw [partsText_append, partsText_kept] at hx
      have hstart : t <+: x := by
        rcases List.append_eq_append_iff.mp hx with ⟨d, hd, -⟩ | ⟨d, hd, hrest⟩
        · exact ⟨d, hd.symm⟩
        · cases d with
          | nil => exact ⟨[], by rw [hd]; simp⟩
          | cons e d =>
            obtain ⟨rfl, -⟩ := List.cons.inj hrest
            exact absurd (hd ▸ List.mem_append_right _ List.mem_cons_self) ht
      obtain ⟨header, n, rfl, -, hn⟩ := ho
      have hlast : (a ++ (kept (header ++ [n]) ++ kept t)).getLast? = some (.inl c) := by rw [hfront]; simp
      cases hlt : t.getLast? with
      | none =>
        rw [List.getLast?_eq_none_iff.mp hlt] at hlast
        have : Sum.inl n = (Sum.inl c : Part) := by simpa using hlast
        rw [← Sum.inl.inj this]
        exact hn
      | some d =>
        obtain ⟨t', rfl⟩ := List.getLast?_eq_some_iff.mp hlt
        have : Sum.inl d = (Sum.inl c : Part) := by simpa [← List.append_assoc] using hlast
        rw [← Sum.inl.inj this]
        exact hall d (hstart.subset (by simp))
    rw [not_name_of_labelEnd hc] at hmem
    cases hmem
  · rw [partsText_kept] at hx
    exact absurd (hx ▸ by simp) ht
  · rw [partsText_append, partsText_kept, partsText_inl] at hx
    obtain ⟨rfl, -⟩ := first_split ht hxnone hx
    exact ⟨t, rest, rfl, hall, hs⟩

/-- A placeholder that was inserted is never struck. -/
theorem clean_not_struck (ho : IsOpener o) (names : List PatternName) : (∀ name ∈ names, name ≠ .privateKey) →
    ∀ u rest, IsClean rest → fate h o names (u ++ (o ++ rest)) u.length ≠ .struck := by
  induction names with
  | nil => exact fun _ _ _ _ hfate => nomatch hfate
  | cons name names ih =>
    intro hnames u rest hclean
    have hnext := ih fun n hn => hnames n (List.mem_cons_of_mem _ hn)
    obtain ⟨htext, hlabelled⟩ := patternParts_facts (h := h) (hnames name List.mem_cons_self) (u ++ (o ++ rest))
    rw [fate, fateIn]
    split
    · decide
    · next a b hlocate =>
      split
      · next hfront =>
        obtain ⟨b, rfl⟩ := hfront
        obtain ⟨hps, hlen⟩ := locate_spec hlocate
        rw [hps] at hlabelled htext
        rw [partsText_append, partsText_append, partsText_kept] at htext
        obtain ⟨-, htail⟩ := List.append_inj htext hlen
        rw [List.append_cancel_left_eq] at htail
        obtain ⟨x, more, rfl, hall, hstrikes⟩ := not_strikes_of_clean ho hlabelled (htail ▸ hclean)
        have hdrop : (kept o ++ (kept x ++ .inl ']' :: more)).drop o.length = kept x ++ .inl ']' :: more :=
          List.drop_left' (by simp [kept])
        have hnew : protectPattern h (u ++ (o ++ rest)) name =
            redacted (placeholderFor name) a ++ (o ++ (x ++ ']' :: redacted (placeholderFor name) more)) := by
          rw [protectPattern_eq, hps]
          simp
        have hlater := hnext (redacted (placeholderFor name) a)
          (x ++ ']' :: redacted (placeholderFor name) more) ⟨x, _, rfl, hall⟩
        rw [hdrop, hstrikes, hnew]
        generalize fate h o names _ _ = later at hlater
        cases later with
        | removed => decide
        | struck => exact absurd rfl hlater
        | intact => decide
      · decide

/-- The text that the patterns leave is canonical when every opener is settled or replaced, and none is struck. -/
theorem run_canonical (names : List PatternName) : (∀ name ∈ names, name ≠ .privateKey) → ∀ text,
    (∀ u v, names.foldl (protectPattern h) text = u ++ v → Settled v) ↔
      ∀ u o rest, text = u ++ (o ++ rest) → IsOpener o → Holds (fate h o names text u.length)
      (Settled (o ++ rest)) := by
  induction names with
  | nil =>
    intro _ text
    constructor
    · exact fun hall u o rest htext _ => hall u (o ++ rest) htext
    · intro hall u v htext P
      obtain ⟨o, rest, rfl, ho, -⟩ := P.opener
      exact hall u o rest htext ho P
  | cons name names ih =>
    intro hnames text
    have hrest : ∀ n ∈ names, n ≠ .privateKey := fun n hn => hnames n (List.mem_cons_of_mem _ hn)
    obtain ⟨htext, -⟩ := patternParts_facts (h := h) (hnames name List.mem_cons_self) text
    rw [List.foldl_cons, ih hrest, protectPattern_eq]
    have hstep := redacted_step name (patternParts h.isWord name text)
      (fun o i => fate h o names (redacted (placeholderFor name) (patternParts h.isWord name text)) i)
      fun u o rest heq ho hclean => by
        rw [heq]
        exact clean_not_struck ho names hrest _ _ hclean
    have hparts := holds_parts name (patternParts h.isWord name text)
      (fun o i => fate h o names (redacted (placeholderFor name) (patternParts h.isWord name text)) i)
    rw [htext] at hparts
    refine (hstep.trans hparts.symm).trans (forall₃_congr fun u o rest => ?_)
    simp only [fate, protectPattern_eq]

/-! ## The key scanner and the rest -/

theorem kept_front {r : List Char} {ys : List Part} (h : kept x ++ .inr r :: ys = kept w ++ b) : w <+: x := by
  induction x generalizing w with
  | nil =>
    cases w with
    | nil => exact List.nil_prefix
    | cons c w => cases (List.cons.inj h).1
  | cons d x ih =>
    cases w with
    | nil => exact List.nil_prefix
    | cons c w =>
      obtain ⟨hc, htail⟩ := List.cons.inj h
      rw [Sum.inl.inj hc]
      exact List.cons_prefix_cons.mpr ⟨rfl, ih htail⟩

theorem kept_run {r : List Char} {ys : List Part} : ∀ {a : List Part}, kept x ++ .inr r :: ys = a ++ (kept w ++ b) →
    w <:+: x ∨ ∃ a', ys = a' ++ (kept w ++ b) := by
  induction x with
  | nil =>
    intro a h
    cases a with
    | nil => exact .inl (kept_front (x := []) h).isInfix
    | cons part a => exact .inr ⟨a, (List.cons.inj h).2⟩
  | cons c x ih =>
    intro a h
    cases a with
    | nil => exact .inl (kept_front h).isInfix
    | cons part a => exact (ih (List.cons.inj h).2).imp_left fun hinside => hinside.trans (List.suffix_cons c x).isInfix

theorem kept_inside {a : List Part} (h : kept x = a ++ (kept w ++ b)) : w <:+: x := by
  have htext := congrArg partsText h
  rw [partsText_append, partsText_append, partsText_kept, partsText_kept] at htext
  exact ⟨partsText a, partsText b, by rw [htext, List.append_assoc]⟩

/-- What stays together stands together in the text. -/
theorem spanParts_inside (text : List Char) (spans : List (Nat × Nat)) : ∀ {cursor : Nat} {a : List Part},
    spanParts text cursor spans = a ++ (kept w ++ b) → w <:+: text := by
  induction spans with
  | nil => exact fun h => (kept_inside h).trans (List.drop_suffix _ _).isInfix
  | cons span spans ih =>
    intro cursor a h
    obtain ⟨start, stop⟩ := span
    rcases kept_run h with hslice | ⟨a', hrest⟩
    · exact hslice.trans ((List.take_prefix _ _).isInfix.trans (List.drop_suffix _ _).isInfix)
    · exact ih hrest

theorem keyParts_inside {active : List PatternName} {text : List Char} {a : List Part}
    (hparts : keyParts h active text = a ++ (kept w ++ b)) : w <:+: text := by
  rw [keyParts] at hparts
  split at hparts
  · exact spanParts_inside text _ hparts
  · exact kept_inside hparts

/-- In what stays of a canonicalised text, the cut names are all that is not canonical. -/
theorem settled_iff_not_cut {active : List PatternName} {text : List Char} {a : List Part} (ho : IsOpener o)
    (hparts : keyParts h active (canonicalizePlaceholders text) = a ++ (kept o ++ b)) (hstrikes : strikes b = false) :
    Settled (o ++ partsText b) ↔ ¬ IsCut (o ++ partsText b) := by
  obtain ⟨o', rfl, -, hclose⟩ := ho.brackets
  have hfront : ∀ {t : List Char}, ']' ∉ t → ']' ∉ '[' :: o' ++ t := fun ht => by simp [hclose, ht]
  rcases strikes_cases b with ⟨hs, -⟩ | ⟨-, t, rfl, ht⟩ | ⟨-, t, rest, rfl, ht⟩
  · rw [hs] at hstrikes
    cases hstrikes
  · rw [partsText_kept]
    refine iff_of_true (settled_of_open (hfront ht)) ?_
    rintro ⟨P, -⟩
    exact hfront ht (by rw [P.text]; simp)
  · have hw : ('[' :: o' ++ t) ++ [']'] <:+: canonicalizePlaceholders text := by
      have hkept : keyParts h active (canonicalizePlaceholders text) = a ++
          (kept (('[' :: o' ++ t) ++ [']']) ++ rest) :=
        hparts.trans (by simp)
      exact keyParts_inside hkept
    obtain ⟨x, y, hxy⟩ := hw
    have hpoint : ∀ P : Placed ('[' :: o' ++ t ++ ']' :: partsText rest), P.written = P.canonical ↔
        P.name.getLast? ≠ some '-' := by
      intro P
      obtain ⟨Q, hname, hwritten⟩ := P.moved (hfront ht) y
      have hcanonical : canonicalizePlaceholders text = x ++ ('[' :: o' ++ t ++ ']' :: y) := by
        rw [← hxy]
        simp
      have hiff := canonicalize_settled hcanonical Q
      rw [hname, hwritten, Placed.canonical, hname] at hiff
      exact hiff
    have htext : '[' :: o' ++ partsText (kept t ++ .inl ']' :: rest) = '[' :: o' ++ t ++
        ']' :: partsText rest := by simp
    rw [htext]
    constructor
    · rintro hall ⟨P, hlast⟩
      exact (hpoint P).mp (hall P) hlast
    · exact fun hcut P => (hpoint P).mpr fun hlast => hcut ⟨P, hlast⟩

theorem passOrder_eq (active : List PatternName) :
    passOrder active = (if .privateKey ∈ active then [.privateKey] else []) ++ otherNames active := by
  rw [passOrder, privateKeyFirst, otherNames]
  congr 1
  by_cases hkey : PatternName.privateKey ∈ active <;> simp [sortedNames, catalogNames, List.filter_filter, hkey]

theorem protected_eq (active : List PatternName) (text : List Char) : (passOrder active).foldl (protectPattern h) text =
    (otherNames active).foldl (protectPattern h) (redacted (placeholderFor .privateKey) (keyParts h active text)) := by
  rw [passOrder_eq, List.foldl_append, keyParts]
  split
  · rw [List.foldl_cons, List.foldl_nil, protectPattern_eq]
  · rw [List.foldl_nil, redacted_kept]

/-- The transformed text is canonical when the text is clear. -/
theorem protected_canonical_iff (active : List PatternName) (text : List Char) :
    canonicalizePlaceholders ((passOrder active).foldl (protectPattern h) (canonicalizePlaceholders text)) =
      (passOrder active).foldl (protectPattern h) (canonicalizePlaceholders text) ↔ IsClear h active text := by
  have hothers : ∀ name ∈ otherNames active, name ≠ .privateKey :=
    fun name hname => of_decide_eq_true (List.mem_filter.mp hname).2
  have hstep := redacted_step .privateKey (keyParts h active (canonicalizePlaceholders text))
    (fun o i => fate h o (otherNames active)
      (redacted (placeholderFor .privateKey) (keyParts h active (canonicalizePlaceholders text))) i)
    fun u o rest heq ho hclean => by
      rw [heq]
      exact clean_not_struck ho _ hothers _ _ hclean
  rw [protected_eq, canonicalize_eq_iff, run_canonical _ hothers, hstep, IsClear]
  refine forall₃_congr fun a o b => forall₂_congr fun hparts ho => ?_
  have hiff : (strikes b = false ∧ Settled (o ++ partsText b)) ↔ (strikes b = false ∧ ¬ IsCut (o ++ partsText b)) :=
    and_congr_right fun hstrikes => settled_iff_not_cut ho hparts hstrikes
  rw [hiff]

/-- The patterns that a policy runs. -/
def activeNames (c : Config) : List PatternName := (configuredSensitivePatternNames c.sensitivePatterns).active

/-- The check accepts a transformed text when the text was clear, and only then. -/
theorem dispatch_accepts_iff {c : Config} {expected : Option String} {text p : List Char}
    {revision : String} {changed : Bool}
    (hprotect : protectEmbeddingText h c expected text = .ok (p, revision, changed)) (hactive : revision ≠ privacyOff) :
    (∃ accepted, validateDispatch h c revision [p] = .ok accepted) ↔ IsClear h (activeNames c) text := by
  rw [protectEmbeddingText] at hprotect
  cases hrevision : embeddingPrivacyRevision h c with
  | error message =>
    rw [hrevision] at hprotect
    cases hprotect
  | ok current =>
    rw [hrevision] at hprotect
    simp only [bind, Except.bind] at hprotect
    split at hprotect
    · cases hprotect
    · split at hprotect
      · next hoff =>
        cases hprotect
        exact absurd hoff hactive
      · split at hprotect
        · cases hprotect
        · next hresidual =>
          cases hprotect
          rw [not_not] at hresidual
          rw [← protected_canonical_iff]
          rw [validateDispatch, hrevision]
          simp only [bind, Except.bind, ne_eq, not_true_eq_false, if_false, if_neg hactive,
            List.findSome?_cons, List.findSome?_nil]
          rw [activeNames]
          generalize (passOrder (configuredSensitivePatternNames c.sensitivePatterns).active).foldl (protectPattern h)
            (canonicalizePlaceholders text) = p at hresidual
          -- the residual patterns are the same on both sides
          by_cases hcanonical : canonicalizePlaceholders p = p
          · have herror : dispatchError h (configuredSensitivePatternNames c.sensitivePatterns).active p = none := by
              rw [dispatchError, if_neg (not_not.mpr hcanonical)]
              simp only [hresidual]
              rfl
            rw [herror]
            exact iff_of_true ⟨_, rfl⟩ hcanonical
          · have herror : dispatchError h (configuredSensitivePatternNames c.sensitivePatterns).active p =
                some "cloud embedding dispatch contains a noncanonical privacy placeholder" := by
              rw [dispatchError, if_pos hcanonical]
            rw [herror]
            exact iff_of_false (fun ⟨_, he⟩ => nomatch he) hcanonical

end

/-! ## An open and a closed text -/

/-- The class `\w` on ASCII; no key material is found without a marker. -/
def asciiHost : Host where
  isWord c := isAsciiAlnum c || c = '_'
  digest _ := ""
  hasOrphanedPrivateKeyBody _ := false
  pemMarkerWithInlineBody _ := false
  hasOrphanFullWidthBase64Run _ := false
  pemFragmentNearPrivateKeyPlaceholder _ := false

def keysOnly : Config := ⟨none, .text "api_key".toList⟩

def keyText : List Char := "api_key=AAAAAAAAAAAA".toList

def openText : List Char := "[LCM embedding privacy: name=foo ".toList ++ keyText

def keyPlaceholder : List Char := "api_key=[LCM embedding privacy: name=api_key]".toList

theorem dispatch_accepts_keyText :
    (∃ accepted, validateDispatch asciiHost keysOnly "privacy:v3:" [keyPlaceholder] = .ok accepted) ↔
    IsClear asciiHost (activeNames keysOnly) keyText :=
  @dispatch_accepts_iff asciiHost keysOnly none keyText keyPlaceholder "privacy:v3:" true (by rfl) (by decide)

/-- The inserted placeholder closes the opener in front of it. -/
theorem dispatch_refuses_openText :
    protectEmbeddingText asciiHost keysOnly none openText =
      .ok ("[LCM embedding privacy: name=foo ".toList ++ keyPlaceholder, "privacy:v3:", true) ∧
    validateDispatch asciiHost keysOnly "privacy:v3:" ["[LCM embedding privacy: name=foo ".toList ++ keyPlaceholder] =
      .error "cloud embedding dispatch contains a noncanonical privacy placeholder" := by
  constructor <;> decide +kernel

end EmbeddingPrivacy
