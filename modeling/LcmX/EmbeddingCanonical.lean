import LcmX.EmbeddingOpeners

/-!
# Canonical texts

What the canonicaliser leaves in a text: its placeholders are all of one form, and of
these the canonicaliser would change only the ones whose name was cut off behind a dash.
-/
namespace EmbeddingPrivacy

open Regex PyText Ingest Sensitive

/-! ## Openers -/

/-- The front of a placeholder: its header and the first character of its name. -/
def IsOpener (o : List Char) : Prop := ∃ header c, o = header ++ [c] ∧ IsHeader header ∧ isNameChar c = true

theorem IsOpener.brackets {o : List Char} (h : IsOpener o) : ∃ rest, o = '[' :: rest ∧ '[' ∉ rest ∧ ']' ∉ rest := by
  obtain ⟨header, c, rfl, hheader, hc⟩ := h
  obtain ⟨rest, rfl, hopen, hclose⟩ := hheader.brackets
  refine ⟨rest ++ [c], rfl, ?_, ?_⟩
  · simpa [hopen] using (name_brackets hc).1.symm
  · simpa [hclose] using (name_brackets hc).2.symm

/-- A text that opens a placeholder, with a closing bracket behind it, has one. -/
theorem IsOpener.placed {o rest : List Char} (h : IsOpener o) (hrest : ']' ∈ rest) : Nonempty (Placed (o ++ rest)) := by
  obtain ⟨header, c, rfl, hheader, hc⟩ := h
  have hclose : ']' ∈ rest.dropWhile isNameChar := by
    rw [← List.takeWhile_append_dropWhile (p := isNameChar) (l := rest), List.mem_append] at hrest
    exact hrest.resolve_left fun hmem => (name_brackets (List.mem_takeWhile_imp hmem)).2 rfl
  obtain ⟨junk, after, hsplit, hnone⟩ := List.eq_append_cons_of_mem hclose
  refine ⟨⟨header, c :: rest.takeWhile isNameChar, junk, after, ?_, hheader, ⟨List.cons_ne_nil _ _, ?_⟩, ?_, hnone⟩⟩
  · rw [List.cons_append, ← hsplit, List.takeWhile_append_dropWhile, List.append_assoc, List.singleton_append]
  · intro d hd
    rcases List.mem_cons.mp hd with rfl | hd
    · exact hc
    · exact List.mem_takeWhile_imp hd
  · intro d hd
    have hfirst := List.head?_dropWhile_not isNameChar rest
    rw [hsplit] at hfirst
    cases junk with
    | nil => cases hd
    | cons e junk =>
      cases hd
      simpa using hfirst

/-- Every placeholder starts with an opener. -/
theorem Placed.opener {v : List Char} (P : Placed v) : ∃ o rest, v = o ++ rest ∧ IsOpener o ∧ ']' ∈ rest := by
  obtain ⟨hne, hall⟩ := P.named
  obtain ⟨c, name, hname⟩ := List.exists_cons_of_ne_nil hne
  refine ⟨P.header ++ [c], name ++ (P.junk ++ ']' :: P.rest), ?_,
    ⟨P.header, c, rfl, P.isHeader, hall c (by rw [hname]; simp)⟩, by simp⟩
  exact P.text.trans (by rw [hname]; simp)

/-! ## Names -/

/-- `[a-z0-9_-]`. -/
def isLowNameChar (c : Char) : Bool := c.isLower || c.isDigit || c = '_' || c = '-'

theorem lowNameChar_table : ∀ n < 128, isLowNameChar (Char.ofNat n) = true →
    isMetadataChar (Char.ofNat n) = true ∧ lowerChar (Char.ofNat n) = [Char.ofNat n] ∧ isSpace (Char.ofNat n) = false ∧
      isNameChar (Char.ofNat n) = true := by
  decide +kernel

theorem lowNameChar_facts {c : Char} (h : isLowNameChar c = true) :
    isMetadataChar c = true ∧ lowerChar c = [c] ∧ isSpace c = false ∧ isNameChar c = true := by
  have hlow : c.toNat < 128 := by
    simp only [isLowNameChar, Bool.or_eq_true, decide_eq_true_eq] at h
    rcases h with ((h | h) | rfl) | rfl
    · exact toNat_lt_of_alnum (by simp [isAsciiAlnum, Char.isAlpha, h])
    · exact toNat_lt_of_alnum (by simp [isAsciiAlnum, h])
    all_goals decide
  have htable := lowNameChar_table c.toNat hlow
  rw [Char.ofNat_toNat] at htable
  exact htable h

theorem lower_low {w : List Char} (h : ∀ c ∈ w, isLowNameChar c = true) : lower w = w := by
  induction w with
  | nil => rfl
  | cons c w ih =>
    have hc := (lowNameChar_facts (h c List.mem_cons_self)).2.1
    rw [lower, List.flatMap_cons, hc, ← lower, ih fun d hd => h d (List.mem_cons_of_mem _ hd)]
    rfl

theorem dashRuns_of_safe {safe : Char → Bool} {w : List Char} (h : ∀ c ∈ w, safe c = true) : dashRuns safe w = w := by
  induction w with
  | nil => rfl
  | cons c w ih => rw [dashRuns, if_pos (h c List.mem_cons_self), ih fun d hd => h d (List.mem_cons_of_mem _ hd)]

theorem strip_low {w : List Char} (h : ∀ c ∈ w, isLowNameChar c = true) : strip w = w := by
  have hfront : w.dropWhile isSpace = w := List.dropWhile_eq_self_iff.mpr fun hpos => by
    rw [(lowNameChar_facts (h _ (List.getElem_mem hpos))).2.2.1]
    decide
  rw [strip, stripBy, hfront, List.rdropWhile_eq_self_iff]
  intro hne
  rw [(lowNameChar_facts (h _ (List.getLast_mem hne))).2.2.1]
  decide

/-- A name of the canonical alphabet stays as it is unless it ends with a dash. -/
theorem metadata_low {w : List Char} (h : ∀ c ∈ w, isLowNameChar c = true) (hhead : w.head? ≠ some '-') (hne : w ≠ [])
    (hlen : w.length ≤ 120) : placeholderMetadata (lower (strip w)) = w ↔ w.getLast? ≠ some '-' := by
  have hfront : w.dropWhile (fun c => decide (c = '-')) = w := by
    cases w with
    | nil => rfl
    | cons c w =>
      rw [List.dropWhile_cons_of_neg]
      simpa using hhead
  have hstripped : stripBy (fun c => decide (c = '-')) w = w.rdropWhile (fun c => decide (c = '-')) := by
    rw [stripBy, hfront]
  have hsafe : dashRuns isMetadataChar w = w := dashRuns_of_safe fun c hc => (lowNameChar_facts (h c hc)).1
  rw [strip_low h, lower_low h, placeholderMetadata]
  simp only [if_neg hne, hsafe, hstripped]
  constructor
  · intro heq hlast
    obtain ⟨front, rfl⟩ := List.getLast?_eq_some_iff.mp hlast
    -- the dash is stripped, so what is left is shorter
    have hdrop : (front ++ ['-']).rdropWhile (fun c => decide (c = '-')) = front.rdropWhile fun c => decide (c = '-') :=
      List.rdropWhile_concat_pos _ _ _ (by decide)
    rw [hdrop] at heq
    have hfrontne : front ≠ [] := by
      rintro rfl
      exact hhead rfl
    split at heq
    · have := congrArg List.length heq
      simp only [List.length_append, List.length_singleton, List.length_take] at this
      exact hfrontne (List.length_eq_zero_iff.mp (by omega))
    · have := congrArg List.length heq
      have hle := (List.rdropWhile_prefix (fun c => decide (c = '-')) front).length_le
      simp only [List.length_append, List.length_singleton, List.length_take] at this
      omega
  · intro hlast
    have hback : w.rdropWhile (fun c => decide (c = '-')) = w := by
      rw [List.rdropWhile_eq_self_iff]
      intro hne' hdash
      exact hlast (by rw [List.getLast?_eq_some_getLast hne', of_decide_eq_true hdash])
    rw [hback, if_neg hne, List.take_of_length_le hlen]

theorem nameChar_low {c : Char} (h : isNameChar c = true) :
    ∀ d ∈ lowerChar c, isMetadataChar d = true → isLowNameChar d = true := by
  have htable : ∀ n < 128, isNameChar (Char.ofNat n) = true →
      ((lowerChar (Char.ofNat n)).all fun d => decide (isMetadataChar d = true → isLowNameChar d = true)) =
        true := by decide +kernel
  by_cases hlow : c.toNat < 128
  · have hc := htable c.toNat hlow
    rw [Char.ofNat_toNat] at hc
    exact forall_mem_of_all (hc h)
  · -- the four letters outside of ASCII
    have hcases : c = Char.ofNat 0x17f ∨ c = Char.ofNat 0x130 ∨ c = Char.ofNat 0x131 ∨ c = Char.ofNat 0x212a := by
      simp only [isNameChar, isAlnumIgnoringCase, Bool.or_eq_true, decide_eq_true_eq] at h
      rcases h with (((((h | h) | h) | h) | h) | rfl) | rfl
      · exact absurd (toNat_lt_of_alnum h) hlow
      · exact .inl (by rw [← h, Char.ofNat_toNat])
      · exact .inr (.inl (by rw [← h, Char.ofNat_toNat]))
      · exact .inr (.inr (.inl (by rw [← h, Char.ofNat_toNat])))
      · exact .inr (.inr (.inr (by rw [← h, Char.ofNat_toNat])))
      · exact absurd (by decide) hlow
      · exact absurd (by decide) hlow
    rcases hcases with rfl | rfl | rfl | rfl <;> exact forall_mem_of_all (by decide +kernel)

theorem mem_dashRuns {safe : Char → Bool} {w : List Char} : ∀ {c}, c ∈ dashRuns safe w →
    c = '-' ∨ c ∈ w ∧ safe c = true := by
  induction w with
  | nil => exact fun h => nomatch h
  | cons d w ih =>
    intro c hc
    have htail : c ∈ dashRuns safe w → c = '-' ∨ c ∈ d :: w ∧ safe c = true := fun h =>
      (ih h).imp_right fun h => ⟨List.mem_cons_of_mem _ h.1, h.2⟩
    rw [dashRuns] at hc
    split at hc
    · next hd =>
      rcases List.mem_cons.mp hc with rfl | hc
      · exact .inr ⟨List.mem_cons_self, hd⟩
      · exact htail hc
    · split at hc
      · exact htail hc
      · rcases List.mem_cons.mp hc with rfl | hc
        · exact .inl rfl
        · exact htail hc

theorem placeholderMetadata_cases (value : List Char) : placeholderMetadata value = ['?'] ∨
    ∃ runs, (∀ c ∈ runs, c = '-' ∨ c ∈ value ∧ isMetadataChar c = true) ∧
      stripBy (fun c => decide (c = '-')) runs ≠ [] ∧
      placeholderMetadata value = (stripBy (fun c => decide (c = '-')) runs).take 120 := by
  by_cases hvalue : value = []
  · rw [hvalue]
    exact .inl (by decide)
  · simp only [placeholderMetadata, if_neg hvalue]
    split
    · exact .inl rfl
    · next hne => exact .inr ⟨_, fun c hc => mem_dashRuns hc, hne, rfl⟩

/-- The name in a placeholder that the canonicaliser writes. -/
structure IsWrittenName (w : List Char) : Prop where
  chars : w = ['?'] ∨ ∀ c ∈ w, isLowNameChar c = true
  head : w.head? ≠ some '-'
  length : w.length ≤ 120

theorem isWrittenName_metadata {name : List Char} (h : ∀ c ∈ name, isNameChar c = true) :
    IsWrittenName (placeholderMetadata (lower (strip name))) := by
  have hlow : ∀ c ∈ lower (strip name), isMetadataChar c = true → isLowNameChar c = true := by
    intro c hc
    obtain ⟨d, hd, hcd⟩ := List.mem_flatMap.mp hc
    exact nameChar_low (h d (mem_of_mem_stripBy hd)) c hcd
  rcases placeholderMetadata_cases (lower (strip name)) with hmark | ⟨runs, hruns, hne, htake⟩
  · rw [hmark]
    exact ⟨.inl rfl, by decide, by decide⟩
  · refine ⟨.inr fun c hc => ?_, fun hhead => ?_, length_placeholderMetadata _⟩
    · rw [htake] at hc
      rcases hruns c (mem_of_mem_stripBy (List.mem_of_mem_take hc)) with rfl | ⟨hmem, hsafe⟩
      · decide
      · exact hlow c hmem hsafe
    · -- nothing is left of a dash at the front
      rw [htake, List.head?_take, if_neg (by decide), stripBy] at hhead
      obtain ⟨rest, hrest⟩ := List.rdropWhile_prefix (fun c => decide (c = '-'))
        (runs.dropWhile fun c => decide (c = '-'))
      have hfirst := List.head?_dropWhile_not (fun c => decide (c = '-')) runs
      rw [← hrest, List.head?_append, hhead] at hfirst
      simp at hfirst

theorem sameIgnoringCase_refl (w : List Char) : SameIgnoringCase w w := Pem.ignoringCase_of_lower rfl

theorem isHeader_embedding : IsHeader "[LCM embedding privacy: name=".toList := by
  have hsplit : "[LCM embedding privacy: name=".toList =
      "[LCM ".toList ++ ("embedding privacy".toList ++ (":".toList ++ ([' '] ++ "name=".toList))) := by decide
  have hkind : IsKind "embedding privacy".toList := .inr (sameIgnoringCase_refl _)
  have hspace : ∀ c ∈ [' '], isSpace c = true := forall_mem_of_all (by decide)
  exact ⟨_, _, _, _, _, hsplit, sameIgnoringCase_refl _, hkind, sameIgnoringCase_refl _, hspace,
    sameIgnoringCase_refl _⟩

theorem embeddingPlaceholder_eq (name : List Char) :
    embeddingPlaceholder name = "[LCM embedding privacy: name=".toList ++ (placeholderMetadata name ++ [']']) := by
  have hfront : "[LCM embedding privacy:".toList ++ " name=".toList =
      "[LCM embedding privacy: name=".toList := by decide +kernel
  unfold embeddingPlaceholder
  simp only [hfront, List.append_assoc]

/-- A placeholder with a written name, and what the name is worth. -/
theorem Placed.written_iff {v front w : List Char} (P : Placed v) (hfront : IsHeader front) (his : IsWrittenName w)
    (hwritten : P.written = front ++ (w ++ [']'])) : w = P.name ∧ P.written = front ++ (P.name ++ [']']) ∧
      (placeholderMetadata (lower (strip P.name)) = P.name ↔ P.name.getLast? ≠ some '-') := by
  have hsplit := hwritten
  have hheader := header_unique P.isHeader hfront hwritten
  rw [Placed.written, hheader, List.append_cancel_left_eq, ← List.append_assoc, List.append_cancel_right_eq] at hwritten
  -- the name goes up to the bracket
  have hall : ∀ c ∈ P.name ++ P.junk, isLowNameChar c = true := by
    rcases his.chars with hmark | hall
    · rw [hmark] at hwritten
      obtain ⟨c, rest, hc⟩ := List.exists_cons_of_ne_nil P.named.1
      rw [hc] at hwritten
      have hnamed := P.named.2 c (by rw [hc]; exact List.mem_cons_self)
      rw [(List.cons.inj hwritten).1] at hnamed
      exact absurd hnamed (by decide)
    · exact hwritten ▸ hall
  have hjunk : P.junk = [] := by
    cases hj : P.junk with
    | nil => rfl
    | cons c junk =>
      have hstop := P.stops c (by rw [hj]; rfl)
      rw [(lowNameChar_facts (hall c (List.mem_append_right _ (by rw [hj]; exact List.mem_cons_self)))).2.2.2] at hstop
      cases hstop
  have hlow : ∀ c ∈ P.name, isLowNameChar c = true := fun c hc => hall c (List.mem_append_left _ hc)
  rw [hjunk, List.append_nil] at hwritten
  rw [← hwritten] at his hsplit
  exact ⟨hwritten.symm, hsplit, metadata_low hlow his.head P.named.1 his.length⟩

/-- A placeholder that the canonicaliser has written is changed again only when its name ends with a dash. -/
theorem Placed.canonical_iff {v : List Char} (P : Placed v) {name : List Char} (hname : ∀ c ∈ name, isNameChar c = true)
    (hwritten : P.written = embeddingPlaceholder (lower (strip name))) : P.written = P.canonical ↔
      P.name.getLast? ≠ some '-' := by
  rw [embeddingPlaceholder_eq] at hwritten
  obtain ⟨-, hwritten, hiff⟩ := P.written_iff isHeader_embedding (isWrittenName_metadata hname) hwritten
  rw [← hiff, hwritten, Placed.canonical, embeddingPlaceholder_eq, List.append_cancel_left_eq,
    List.append_cancel_right_eq, eq_comm]

/-! ## What the canonicaliser leaves -/

theorem canonical_first (P : Placed v) (tail : List Char) : ∃ rest, P.canonical ++ tail = '[' :: rest := by
  obtain ⟨body, hbody, -⟩ := embeddingPlaceholder_brackets (lower (strip P.name))
  exact ⟨(body ++ [']']) ++ tail, by rw [Placed.canonical, hbody]; rfl⟩

/-- In front of its first opening bracket the canonicaliser changes nothing. -/
theorem pieces_front (fuel : Nat) : ∀ {behind ahead w y : List Char}, ahead.length ≤ fuel → '[' ∉ w →
    (pieces placeholderRe fuel behind ahead).flatMap (pieceText canonicalMatch) = w ++ y →
    ∃ y', ahead = w ++ y' ∧ (']' ∈ y → ']' ∈ y') := by
  induction fuel with
  | zero =>
    intro behind ahead w y h _ hout
    obtain rfl := List.length_eq_zero_iff.mp (by omega : ahead.length = 0)
    obtain ⟨rfl, rfl⟩ := List.append_eq_nil_iff.mp hout.symm
    exact ⟨[], rfl, id⟩
  | succ fuel ih =>
    intro behind ahead w y h hw hout
    rw [pieces_succ] at hout
    split at hout
    · next t ht =>
      obtain ⟨hmatch, -⟩ := Option.filter_eq_some_iff.mp ht
      obtain ⟨P⟩ := exists_placed hmatch
      rw [P.run_placeholder, Option.some.injEq] at hmatch
      subst hmatch
      rw [List.flatMap_cons, pieceText, P.found_canonical] at hout
      obtain ⟨rest, hrest⟩ := canonical_first P
        ((pieces placeholderRe fuel (P.past behind).behind (P.past behind).ahead).flatMap
        (pieceText canonicalMatch))
      rw [hrest] at hout
      cases w with
      | nil =>
        obtain ⟨front, hfront, -⟩ := P.written_first
        exact ⟨ahead, rfl, fun _ => by rw [P.text]; simp⟩
      | cons c w => exact absurd (List.cons.inj hout).1 fun he => hw (he ▸ List.mem_cons_self)
    · cases ahead with
      | nil =>
        obtain ⟨rfl, rfl⟩ := List.append_eq_nil_iff.mp hout.symm
        exact ⟨[], rfl, id⟩
      | cons c rest =>
        rw [List.flatMap_cons, pieceText, List.singleton_append] at hout
        have hrest := @ih (c :: behind) rest
        cases w with
        | nil =>
          refine ⟨c :: rest, rfl, fun hmem => ?_⟩
          rw [List.nil_append] at hout
          rw [← hout] at hmem
          rcases List.mem_cons.mp hmem with rfl | hmem
          · exact List.mem_cons_self
          · obtain ⟨y', rfl, hclose⟩ := @hrest [] _ (by simpa using h) (by simp) rfl
            exact List.mem_cons_of_mem _ (hclose hmem)
        | cons d w =>
          obtain ⟨rfl, hafter⟩ := List.cons.inj hout
          obtain ⟨y', rfl, hclose⟩ := hrest (by simpa using h) (fun hmem => hw (List.mem_cons_of_mem _ hmem)) hafter
          exact ⟨y', rfl, hclose⟩

/-- A placeholder in the canonical text names its pattern in canonical form. -/
theorem pieces_written (fuel : Nat) : ∀ {behind ahead u v : List Char}, ahead.length ≤ fuel →
    (pieces placeholderRe fuel behind ahead).flatMap (pieceText canonicalMatch) = u ++ v → ∀ P : Placed v,
    ∃ name, (∀ c ∈ name, isNameChar c = true) ∧ P.written = embeddingPlaceholder (lower (strip name)) := by
  induction fuel with
  | zero =>
    intro behind ahead u v h hout P
    obtain ⟨-, rfl⟩ := List.append_eq_nil_iff.mp hout.symm
    exact absurd (front_bracket P) (by decide)
  | succ fuel ih =>
    intro behind ahead u v h hout P
    rw [pieces_succ] at hout
    split at hout
    · next t ht =>
      obtain ⟨hmatch, hless⟩ := Option.filter_eq_some_iff.mp ht
      obtain ⟨Q⟩ := exists_placed hmatch
      rw [Q.run_placeholder, Option.some.injEq] at hmatch
      subst hmatch
      have hshort : Q.rest.length < ahead.length := of_decide_eq_true hless
      rw [List.flatMap_cons, pieceText, Q.found_canonical] at hout
      by_cases hu : u = []
      · -- the placeholder that was just written
        rw [hu, List.nil_append] at hout
        exact ⟨Q.name, Q.named.2, (P.front_written hout).1⟩
      · by_cases hlength : u.length < Q.canonical.length
        · exact absurd (settled_inside_head hout hu hlength) fun hhead => hhead (front_bracket P)
        · rcases List.append_eq_append_iff.mp hout with ⟨d, rfl, hd⟩ | ⟨d, hd, rfl⟩
          · exact ih (by rw [show (Q.past behind).ahead = Q.rest from rfl]; omega) hd P
          · have hnil : d = [] := by
              have := congrArg List.length hd
              rw [List.length_append] at this
              exact List.length_eq_zero_iff.mp (by omega)
            subst hnil
            exact ih (by rw [show (Q.past behind).ahead = Q.rest from rfl]; omega) (List.nil_append _).symm P
    · next hnone =>
      cases ahead with
      | nil =>
        obtain ⟨-, rfl⟩ := List.append_eq_nil_iff.mp hout.symm
        exact absurd (front_bracket P) (by decide)
      | cons c rest =>
        rw [List.flatMap_cons, pieceText, List.singleton_append] at hout
        cases u with
        | cons d u => exact ih (by simpa using h) (List.cons.inj hout).2 P
        | nil =>
          -- the same placeholder would have been found in the text
          rw [List.nil_append] at hout
          obtain ⟨o, after, hsplit, hopener, hclose⟩ := P.opener
          obtain ⟨o', rfl, hopen, -⟩ := hopener.brackets
          rw [hsplit, List.cons_append, List.cons.injEq] at hout
          obtain ⟨rfl, hout⟩ := hout
          obtain ⟨y', rfl, hback⟩ := pieces_front fuel (by simpa using h) hopen hout
          obtain ⟨Q⟩ := hopener.placed (hback hclose)
          exact (Q.not_unmatched hnone).elim

/-- A canonicalised text is canonical at every placeholder whose name does not end with a dash, and at no other. -/
theorem canonicalize_settled {text u v : List Char} (h : canonicalizePlaceholders text = u ++ v) (P : Placed v) :
    P.written = P.canonical ↔ P.name.getLast? ≠ some '-' := by
  obtain ⟨name, hname, hwritten⟩ := pieces_written _ (Nat.le_refl _) h P
  exact P.canonical_iff hname hwritten

end EmbeddingPrivacy
