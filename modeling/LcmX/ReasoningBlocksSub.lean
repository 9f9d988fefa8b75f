import LcmX.ReasoningBlocks
import LcmX.PemMarkers

/-!
# The substitution of reasoning blocks

The loop that remembers the tags without a closing tag leaves what the substitution of
the expression leaves: a tag that is never closed behind one place is closed behind no later one.
-/
namespace Escalation

open Regex PyText

/-! ## Characters of a tag -/

def isTagChar (c : Char) : Bool := isAlnumIgnoringCase c || c = '_'

theorem isTagChar_of_ignoringCase {l c : Char} (hl : l ∈ reasoningTags.flatten)
    (h : ignoringCase l c = true) : isTagChar c = true := by
  have hascii : l.toLower.toNat < 128 :=
    forall_mem_of_all (P := fun l => l.toLower.toNat < 128) (by decide +kernel) l hl
  have htable : ∀ n < 128, (reasoningTags.flatten.all fun l =>
      decide ((Char.ofNat n).toLower = l.toLower → isTagChar (Char.ofNat n) = true)) = true := by decide +kernel
  simp only [ignoringCase, Bool.or_eq_true, Bool.and_eq_true, decide_eq_true_eq] at h
  obtain ((h | h) | h) | h := h
  · have hc := forall_mem_of_all (htable c.toNat (Pem.toNat_lt_of_toLower (h ▸ hascii))) l hl
    rw [Char.ofNat_toNat] at hc
    exact hc h
  · simp [isTagChar, isAlnumIgnoringCase, h.2]
  · obtain h | h := h.2
    · simp [isTagChar, isAlnumIgnoringCase, h]
    · simp [isTagChar, isAlnumIgnoringCase, h]
  · simp [isTagChar, isAlnumIgnoringCase, h.2]

theorem IsTagName.chars {tag : List Char} (h : IsTagName tag) : ∀ c ∈ tag, isTagChar c = true := by
  obtain ⟨name, hname, hsame⟩ := h
  have hall : ∀ l ∈ name, l ∈ reasoningTags.flatten := fun l hl => List.mem_flatten.mpr ⟨name, hname, hl⟩
  clear hname
  induction hsame with
  | nil => simp
  | cons hc _ ih =>
    intro d hd
    cases hd with
    | head => exact isTagChar_of_ignoringCase (hall _ List.mem_cons_self) hc
    | tail _ hd => exact ih (fun l hl => hall l (List.mem_cons_of_mem _ hl)) d hd

theorem IsTagName.not_mem {tag : List Char} (h : IsTagName tag) {d : Char} (hd : isTagChar d = false) : d ∉ tag := by
  intro hmem
  rw [h.chars d hmem] at hd
  cases hd

theorem isTagChar_space {c : Char} (h : isSpace c = true) : isTagChar c = false := by
  rw [Bool.eq_false_iff]
  intro htag
  have hval : c.toNat = c.val.toNat := rfl
  have hA : ('A').val.toNat = 65 := rfl
  have hZ : ('Z').val.toNat = 90 := rfl
  have ha : ('a').val.toNat = 97 := rfl
  have hz : ('z').val.toNat = 122 := rfl
  have h0 : ('0').val.toNat = 48 := rfl
  have h9 : ('9').val.toNat = 57 := rfl
  simp only [isTagChar, isAlnumIgnoringCase, isAsciiAlnum, Char.isAlpha, Char.isUpper, Char.isLower,
    Char.isDigit, Bool.or_eq_true,
    Bool.and_eq_true, decide_eq_true_eq, ge_iff_le, UInt32.le_iff_toNat_le] at htag
  simp only [isSpace, Bool.or_eq_true, Bool.and_eq_true, decide_eq_true_eq] at h
  obtain htag | rfl := htag
  · omega
  · exact absurd h (by decide)

/-! ## Opening tags -/

/-- A text is cut in one way where a class ends. -/
theorem cut_unique {p : Char → Bool} {a : List Char} : ∀ {b x y : List Char}, (∀ c ∈ a, p c = true) →
    (∀ c ∈ b, p c = true) →
    (∀ c ∈ x.head?, p c = false) → (∀ c ∈ y.head?, p c = false) → a ++ x = b ++ y → a = b ∧ x = y := by
  induction a with
  | nil =>
    intro b x y _ hb hx _ h
    cases b with
    | nil => exact ⟨rfl, h⟩
    | cons c b =>
      rw [List.nil_append] at h
      rw [h] at hx
      exact absurd (hb c List.mem_cons_self) (by rw [hx c rfl]; decide)
  | cons d a ih =>
    intro b x y ha hb hx hy h
    cases b with
    | nil =>
      rw [List.nil_append] at h
      rw [← h] at hy
      exact absurd (ha d List.mem_cons_self) (by rw [hy d rfl]; decide)
    | cons c b =>
      obtain ⟨rfl, htail⟩ := List.cons_eq_cons.mp (show d :: (a ++ x) = c :: (b ++ y) from h)
      obtain ⟨rfl, rfl⟩ := ih (fun e he => ha e (List.mem_cons_of_mem _ he))
        (fun e he => hb e (List.mem_cons_of_mem _ he)) hx hy htail
      exact ⟨rfl, rfl⟩

variable {w behind ahead text : List Char} {start : Nat}

theorem IsOpening.unique {tag tag' w' x x' : List Char} (h : IsOpening tag w)
    (h' : IsOpening tag' w') (heq : w ++ x = w' ++ x') :
    tag = tag' ∧ w = w' ∧ x = x' := by
  obtain ⟨htag, sp, hsp, rfl⟩ := h
  obtain ⟨htag', sp', hsp', rfl⟩ := h'
  have hfirst : ∀ (sp x : List Char), (∀ c ∈ sp, isSpace c = true) → ∀ c ∈ (sp ++ ('>' :: x)).head?,
      isTagChar c = false := by
    intro sp x hsp c hc
    cases sp with
    | nil => rw [← Option.some.inj hc]; decide
    | cons d sp => rw [← Option.some.inj hc]; exact isTagChar_space (hsp d List.mem_cons_self)
  have heq : tag ++ (sp ++ '>' :: x) = tag' ++ (sp' ++ '>' :: x') := by simpa using heq
  obtain ⟨rfl, hrest⟩ := cut_unique htag.chars htag'.chars (hfirst sp x hsp) (hfirst sp' x' hsp') heq
  have hmark : ∀ x : List Char, ∀ c ∈ ('>' :: x).head?, isSpace c = false := by
    rintro x c hc
    rw [← Option.some.inj hc]
    decide
  obtain ⟨rfl, hend⟩ := cut_unique hsp hsp' (hmark x) (hmark x') hrest
  exact ⟨rfl, rfl, (List.cons_eq_cons.mp hend).2⟩

/-- What a run of the opening expression leads to. -/
theorem mem_run_thinkOpenRe {t : State} (h : t ∈ run thinkOpenRe ⟨behind, ahead, []⟩) :
    ∃ tag w, IsOpening tag w ∧ Reaches ⟨behind, ahead, []⟩ w t ∧ t.group 1 = some tag := by
  obtain ⟨s, hs, h⟩ := List.mem_flatMap.mp h
  obtain ⟨u, hu, h⟩ := List.mem_flatMap.mp h
  obtain ⟨v, hv, rfl⟩ := mem_run_group hu
  obtain ⟨_, hopen, hgs, rfl⟩ := Yields.lit ['<'] hs
  obtain ⟨a, ha, hname⟩ := mem_run_oneOf.mp hv
  obtain ⟨name, hmem, rfl⟩ := List.mem_map.mp ha
  obtain ⟨tag, htag, hgv, hsame⟩ := Yields.litIgnoringCase name hname
  obtain ⟨_, hrest, hgt, sp, _, rfl, ⟨hsp, -⟩, rfl⟩ := ((Yields.rep false 0 none isSpace).seq (Yields.lit ['>'])) h
  refine ⟨tag, '<' :: (tag ++ (sp ++ ['>'])), ⟨⟨name, hmem, hsame⟩, sp, hsp, rfl⟩, ?_, ?_⟩
  · exact (hopen.trans htag).trans hrest
  · have htext : t.text = s.text := hrest.text_eq.trans htag.text_eq
    rw [State.group, hgt, htext]
    simpa using htag.slice_eq

theorem run_thinkOpenRe {tag : List Char} (h : IsOpening tag w) (behind rest : List Char) :
    ∃ t ∈ run thinkOpenRe ⟨behind, w ++ rest, []⟩, t.behind = w.reverse ++ behind ∧ t.ahead = rest := by
  obtain ⟨⟨name, hmem, hsame⟩, sp, hsp, rfl⟩ := h
  have hspaces : Accepts spaces sp := Accepts.rep false hsp (Nat.zero_le _) fun n hn => by cases hn
  have hrest := hspaces.seq (Accepts.lit ['>'])
  rw [List.cons_append, List.append_assoc]
  refine ⟨_, List.mem_flatMap.mpr ⟨_, Accepts.lit ['<'] behind (tag ++ ((sp ++ ['>']) ++ rest)) [], List.mem_flatMap.mpr
    ⟨_, List.mem_map.mpr ⟨_, mem_run_oneOf.mpr ⟨_, List.mem_map_of_mem hmem, Accepts.litIgnoringCase hsame _ _ _⟩, rfl⟩,
      hrest _ rest _⟩⟩, ?_, rfl⟩
  simp

theorem IsOpening.ne_nil {tag : List Char} (h : IsOpening tag w) : w ≠ [] := by
  obtain ⟨-, sp, -, rfl⟩ := h
  exact List.cons_ne_nil _ _

/-! ## Blocks -/

theorem thinkCloseRe_yields (tag : List Char) : Yields (thinkCloseRe tag) (IsClosing tag) := by
  refine ((Yields.lit ['<', '/']).seq
    ((Yields.litLowered tag).seq ((Yields.rep false 0 none isSpace).seq (Yields.lit ['>'])))).imp ?_
  rintro _ ⟨_, _, rfl, rfl, name, _, rfl, hname, sp, _, rfl, ⟨hsp, -⟩, rfl⟩
  exact ⟨name, sp, hname, hsp, rfl⟩

theorem thinkCloseRe_accepts {tag c : List Char} (h : IsClosing tag c) : Accepts (thinkCloseRe tag) c := by
  obtain ⟨name, sp, hname, hsp, rfl⟩ := h
  have hspaces : Accepts spaces sp := Accepts.rep false hsp (Nat.zero_le _) fun n hn => by cases hn
  exact (Accepts.lit ['<', '/']).seq ((Accepts.litLowered hname).seq (hspaces.seq (Accepts.lit ['>'])))

theorem mem_blockStates {t : State} (h : t ∈ blockStates ⟨behind, ahead, []⟩) :
    ∃ tag w x c, IsOpening tag w ∧ IsClosing tag c ∧ Reaches ⟨behind, ahead, []⟩ (w ++ (x ++ c)) t := by
  obtain ⟨s, hs, h⟩ := List.mem_flatMap.mp h
  obtain ⟨tag, w, hopening, hw, hgroup⟩ := mem_run_thinkOpenRe hs
  rw [hgroup] at h
  obtain ⟨_, hrest, -, x, c, rfl, -, hclosing⟩ :=
    ((Yields.rep true 0 none fun _ => true).seq (thinkCloseRe_yields tag)) h
  exact ⟨tag, w, x, c, hopening, hclosing, hw.trans hrest⟩

theorem blockStates_of_starts (behind : List Char) (h : StartsBlock ahead) :
    ∃ t, t ∈ blockStates ⟨behind, ahead, []⟩ := by
  obtain ⟨tag, w, x, c, rest, hopening, hclosing, rfl⟩ := h
  obtain ⟨t, ht, -, hahead⟩ := run_thinkOpenRe hopening behind (x ++ (c ++ rest))
  -- the name that was captured is the one of this opening tag
  obtain ⟨tag', w', hopening', hw', hgroup⟩ := mem_run_thinkOpenRe ht
  obtain ⟨rfl, -, -⟩ := hopening.unique hopening' hw'.2
  have hany : Accepts (.rep true 0 none (.char fun _ => true)) x :=
    Accepts.rep true (fun _ _ => rfl) (Nat.zero_le _) fun n hn => by cases hn
  have hmem := (hany.seq (thinkCloseRe_accepts hclosing)) t.behind rest t.groups
  rw [List.append_assoc, ← hahead] at hmem
  exact ⟨_, List.mem_flatMap.mpr ⟨t, ht, by rw [hgroup]; exact hmem⟩⟩

theorem matchBlock_eq_none : matchBlock behind ahead = none ↔ ¬ StartsBlock ahead := by
  rw [matchBlock, List.head?_eq_none_iff]
  constructor
  · intro hnil hstarts
    obtain ⟨t, ht⟩ := blockStates_of_starts behind hstarts
    rw [hnil] at ht
    cases ht
  · intro hstarts
    rw [List.eq_nil_iff_forall_not_mem]
    intro t ht
    obtain ⟨tag, w, x, c, hopening, hclosing, hreach⟩ := mem_blockStates ht
    exact hstarts ⟨tag, w, x, c, t.ahead, hopening, hclosing, by simpa using hreach.2⟩

theorem matchBlock_some {t : State} (h : matchBlock behind ahead = some t) :
    ∃ w, w ≠ [] ∧ Reaches ⟨behind, ahead, []⟩ w t := by
  obtain ⟨tag, w, x, c, hopening, -, hreach⟩ := mem_blockStates (List.mem_of_mem_head? h)
  exact ⟨_, List.append_ne_nil_of_left_ne_nil hopening.ne_nil _, hreach⟩

/-! ## The pieces of a text -/

theorem blockPieces_succ (fuel : Nat) (behind ahead : List Char) : blockPieces (fuel + 1) behind ahead =
    match matchBlock behind ahead with
    | some t => .inr (ahead.take (t.pos - behind.length)) :: blockPieces fuel t.behind t.ahead
    | none =>
      match ahead with
      | [] => []
      | c :: rest => .inl c :: blockPieces fuel (c :: behind) rest := by
  cases ahead <;> rfl

/-- Fuel for every character is enough. -/
theorem blockPieces_fuel {fuel : Nat} : ∀ {behind ahead : List Char}, ahead.length ≤ fuel →
    blockPieces fuel behind ahead = blockPieces ahead.length behind ahead := by
  induction fuel using Nat.strong_induction_on with
  | h fuel ih =>
    intro behind ahead h
    cases fuel with
    | zero => rw [Nat.le_zero.mp h]
    | succ fuel =>
      cases ahead with
      | nil =>
        have hnone : matchBlock behind [] = none := by
          rw [matchBlock_eq_none]
          rintro ⟨tag, w, x, c, rest, hopening, -, hnil⟩
          exact hopening.ne_nil (List.append_eq_nil_iff.mp hnil.symm).1
        rw [blockPieces, hnone]
        rfl
      | cons c rest =>
        rw [List.length_cons] at h
        rw [blockPieces, List.length_cons, blockPieces]
        cases ht : matchBlock behind (c :: rest) with
        | none => simp only [ih fuel (by omega) (show rest.length ≤ fuel by omega)]
        | some t =>
          obtain ⟨w, hne, hreach⟩ := matchBlock_some ht
          have hless : t.ahead.length ≤ rest.length := by
            have hlen := congrArg List.length hreach.2
            have hpos := List.length_pos_iff.mpr hne
            simp only [List.length_cons, List.length_append] at hlen
            omega
          simp only [ih fuel (by omega) (show t.ahead.length ≤ fuel by omega), ih rest.length (by omega) hless]

/-- What is kept of a text that is ahead. -/
def keptAfter (behind ahead : List Char) : List Char := keptChars (blockPieces ahead.length behind ahead)

theorem keptAfter_block {t : State} (h : matchBlock behind ahead = some t) :
    keptAfter behind ahead = keptAfter t.behind t.ahead := by
  obtain ⟨w, hne, hreach⟩ := matchBlock_some h
  have hlen := congrArg List.length hreach.2
  have hpos := List.length_pos_iff.mpr hne
  simp only [List.length_append] at hlen
  obtain ⟨n, hn⟩ : ∃ n, ahead.length = n + 1 := ⟨ahead.length - 1, by omega⟩
  have hfuel : t.ahead.length ≤ n := by omega
  rw [keptAfter, hn, blockPieces_succ, h, keptChars, keptAfter, ← blockPieces_fuel hfuel]
  rfl

theorem keptAfter_cons {rest : List Char} {c : Char} (h : ¬ StartsBlock (c :: rest)) :
    keptAfter behind (c :: rest) = c :: keptAfter (c :: behind) rest := by
  rw [keptAfter, List.length_cons, blockPieces, matchBlock_eq_none.mpr h]
  rfl

theorem keptAfter_append {u : List Char} : ∀ {behind v : List Char},
    (∀ x y, u ++ v = x ++ y → x.length < u.length → ¬ StartsBlock y) →
      keptAfter behind (u ++ v) = u ++ keptAfter (u.reverse ++ behind) v := by
  induction u with
  | nil => exact fun _ => rfl
  | cons c u ih =>
    intro behind v h
    rw [List.cons_append, keptAfter_cons (h [] (c :: (u ++ v)) rfl (by simp)), ih]
    · simp
    · intro x y hxy hlt
      exact h (c :: x) y (by rw [List.cons_append, hxy, List.cons_append]) (by simpa using hlt)

/-! ## Spellings without a closing tag -/

theorem lowerChar_filter {c : Char} (h : isTagChar c = true) :
    (lowerChar c).filter (· ≠ Char.ofNat 0x307) = [lowered c] := by
  have htable : ∀ n < 128, (Char.ofNat n).toLower ≠ Char.ofNat 0x307 := by decide +kernel
  have hlower : c.toLower ≠ Char.ofNat 0x307 := by
    intro hmark
    have hc := htable c.toNat
    rw [Char.ofNat_toNat] at hc
    rw [Char.toLower] at hmark
    split at hmark
    · next hupper =>
      have hZ : ('Z').val.toNat = 90 := rfl
      have hval : c.toNat = c.val.toNat := rfl
      have hle := UInt32.le_iff_toNat_le.mp hupper.2
      exact hc (by omega) (by rw [Char.toLower, dif_pos hupper, hmark])
    · rw [hmark] at h
      exact absurd h (by decide)
  rw [lowerChar, lowered]
  split
  · decide
  · split
    · decide
    · simp [hlower]

/-- Tags whose lowered texts are equal have the same closing tags. -/
theorem IsTagName.lowered_eq {tag tag' : List Char} (h : IsTagName tag) (h' : IsTagName tag')
    (heq : lower tag = lower tag') :
    tag.map lowered = tag'.map lowered := by
  have hmap : ∀ tag : List Char, (∀ c ∈ tag, isTagChar c = true) →
      (lower tag).filter (· ≠ Char.ofNat 0x307) = tag.map lowered := by
    intro tag hall
    rw [lower, List.filter_flatMap, List.map_eq_flatMap]
    exact List.flatMap_congr fun c hc => lowerChar_filter (hall c hc)
  rw [← hmap tag h.chars, heq, hmap tag' h'.chars]

/-- No tag with one of these spellings is closed from here on. -/
def Unclosed (unclosed : List (List Char)) (text : List Char) : Prop :=
  ∀ tag, IsTagName tag → lower tag ∈ unclosed → ∀ x c y, text = x ++ (c ++ y) → ¬ IsClosing tag c

theorem Unclosed.later {unclosed : List (List Char)} {front : List Char} (h : Unclosed unclosed (front ++ text)) :
    Unclosed unclosed text := by
  intro tag htag hmem x c y htext
  exact h tag htag hmem (front ++ x) c y (by rw [htext, List.append_assoc])

/-- An opening tag with nothing to close it has its spelling remembered. -/
theorem Unclosed.cons {unclosed : List (List Char)} {tag rest : List Char} {d : Char}
    (h : Unclosed unclosed (d :: behind))
    (hopening : IsOpening tag w) (htext : d :: behind = w ++ rest) (hnone : ¬ StartsBlock (d :: behind)) :
    Unclosed (lower tag :: unclosed) behind := by
  have hold : Unclosed unclosed behind := Unclosed.later (show Unclosed unclosed ([d] ++ behind) from h)
  intro tag' htag' hmem x c y hbehind hclosing
  obtain hsame | hmem := List.mem_cons.mp hmem
  · obtain ⟨name, sp', hname, hsp', rfl⟩ := hclosing
    have hopen := hopening
    obtain ⟨htag, sp, hsp, rfl⟩ := hopening
    have hclosing : IsClosing tag ('<' :: '/' :: (name ++ (sp' ++ ['>']))) :=
      ⟨name, sp', hname.trans (htag'.lowered_eq htag hsame), hsp', rfl⟩
    -- a closing tag starts behind the opening tag, which has one bracket only
    have hbracket : '<' ∉ tag ++ (sp ++ ['>']) := by
      have hspace : '<' ∉ sp := fun hmem => absurd (hsp _ hmem) (by decide)
      simp [htag.not_mem (d := '<') (by decide), hspace]
    have hsplit : x ++ ('<' :: '/' :: (name ++ (sp' ++ ['>'])) ++ y) = (tag ++ (sp ++ ['>'])) ++ rest := by
      rw [← hbehind]
      exact (List.cons_eq_cons.mp htext).2
    obtain ⟨a, ha, hrest⟩ | ⟨a, -, hrest⟩ := List.append_eq_append_iff.mp hsplit
    · cases a with
      | nil => exact hnone ⟨tag, _, [], _, y, hopen, hclosing, by rw [htext, ← List.nil_append rest, ← hrest]; rfl⟩
      | cons e a =>
        obtain ⟨rfl, -⟩ := List.cons_eq_cons.mp (show '<' :: _ = e :: (a ++ rest) from hrest)
        exact hbracket (by rw [ha]; simp)
    · exact hnone ⟨tag, _, a, _, y, hopen, hclosing, by rw [htext, hrest]⟩
  · exact hold tag' htag' hmem x c y hbehind hclosing

/-! ## The loop -/

/-- The next opening tag ahead. -/
theorem search_thinkOpenRe {m : Match} (h : search thinkOpenRe behind ahead = some m) :
    ∃ u tag w rest, ahead = u ++ (w ++ rest) ∧ IsOpening tag w ∧ m.start = behind.length + u.length ∧
      m.group 1 = some tag ∧
      ∀ x y, ahead = x ++ y → x.length < u.length → ¬ StartsBlock y := by
  obtain ⟨u, v, t, rfl, ht, rfl, hbefore⟩ := search_some h
  obtain ⟨tag, w, hopening, hreach, hgroup⟩ := mem_run_thinkOpenRe (List.mem_of_mem_head? ht)
  refine ⟨u, tag, w, t.ahead, congrArg (u ++ ·) hreach.2, hopening, ?_, ?_, ?_⟩
  · simp only [found, State.pos, List.length_append, List.length_reverse]
    omega
  · rw [State.group, Option.map_eq_some_iff] at hgroup
    obtain ⟨g, hg, htag⟩ := hgroup
    rw [Match.group, found, List.find?_map, Option.map_map, Option.map_eq_some_iff]
    exact ⟨g, hg, htag⟩
  · rintro x y hxy hlt ⟨tag', w', z, c, rest, hopening', -, rfl⟩
    obtain ⟨s, hs, -⟩ := run_thinkOpenRe hopening' (x.reverse ++ behind) (z ++ (c ++ rest))
    have hnone := hbefore x _ hxy hlt
    rw [matchAt, List.head?_eq_none_iff] at hnone
    rw [hnone] at hs
    cases hs

theorem no_block_of_search_none (h : search thinkOpenRe behind ahead = none) :
    ∀ x y, ahead = x ++ y → ¬ StartsBlock y := by
  rintro x y hxy ⟨tag, w, z, c, rest, hopening, -, rfl⟩
  obtain ⟨s, hs, -⟩ := run_thinkOpenRe hopening (x.reverse ++ behind) (z ++ (c ++ rest))
  have hnone := search_none h x _ hxy
  rw [matchAt, List.head?_eq_none_iff] at hnone
  rw [hnone] at hs
  cases hs

theorem keptAfter_nil (behind : List Char) : keptAfter behind [] = [] := rfl

/-- Nothing is taken out of a text in which no block starts. -/
theorem keptAfter_eq_self (h : ∀ x y, ahead = x ++ y → ¬ StartsBlock y) : keptAfter behind ahead = ahead := by
  have hnone : ∀ x y, ahead ++ [] = x ++ y → x.length < ahead.length → ¬ StartsBlock y :=
    fun x y hxy _ => h x y (by rw [← hxy, List.append_nil])
  have hkept : keptAfter behind (ahead ++ []) = ahead ++ keptAfter (ahead.reverse ++ behind) [] :=
    keptAfter_append hnone
  rwa [List.append_nil, keptAfter_nil, List.append_nil] at hkept

theorem slice_append_drop (text : List Char) {stop : Nat} (h : start ≤ stop) :
    slice text start stop ++ text.drop stop = text.drop start := by
  rw [slice, ← Nat.add_sub_of_le h, ← List.drop_drop]
  simp

theorem slice_append_slice (text : List Char) {a b c : Nat} (hab : a ≤ b) (hbc : b ≤ c) :
    slice text a b ++ slice text b c = slice text a c := by
  have hc : c - a = (b - a) + (c - b) := by omega
  rw [slice, slice, slice, hc, List.take_add, List.drop_drop, Nat.add_sub_of_le hab]

/-- What is kept of the text from a place on. -/
def keptFrom (text : List Char) (start : Nat) : List Char := keptAfter (text.take start).reverse (text.drop start)

theorem keptFrom_add {u : List Char} (hu : u <+: text.drop start)
    (h : ∀ x y, text.drop start = x ++ y → x.length < u.length → ¬ StartsBlock y) :
      keptFrom text start = u ++ keptFrom text (start + u.length) := by
  obtain ⟨v, hv⟩ := hu
  have htake : text.take (start + u.length) = text.take start ++ u := by rw [List.take_add, ← hv, List.take_left]
  have hdrop : text.drop (start + u.length) = v := by rw [← List.drop_drop, ← hv, List.drop_left]
  rw [keptFrom, ← hv, keptAfter_append (by rwa [hv]), keptFrom, htake, hdrop, List.reverse_append]

theorem keptFrom_block {t : State} (hstart : start ≤ text.length)
    (h : matchBlock (text.take start).reverse (text.drop start) = some t) :
    start < t.pos ∧ t.pos ≤ text.length ∧ keptFrom text start = keptFrom text t.pos := by
  obtain ⟨w, hne, hreach⟩ := matchBlock_some h
  have hlen : (text.take start).length = start := List.length_take_of_le hstart
  have hpos : t.pos = start + w.length := by
    rw [hreach.pos_eq, State.pos, List.length_reverse, hlen]
  have hdrop : text.drop start = w ++ t.ahead := hreach.2
  have hbehind : (text.take t.pos).reverse = t.behind := by
    rw [hreach.1, hpos, List.take_add, hdrop, List.take_left, List.reverse_append]
  have hahead : text.drop t.pos = t.ahead := by rw [hpos, ← List.drop_drop, hdrop, List.drop_left]
  have hw := List.length_pos_iff.mpr hne
  refine ⟨by omega, ?_, ?_⟩
  · have := congrArg List.length hdrop
    simp only [List.length_drop, List.length_append] at this
    omega
  · rw [keptFrom, keptAfter_block h, keptFrom, hbehind, hahead]

/-- What is put out and what is left of the text are what was put out, the text up to here, and what
is kept from here on. -/
theorem stripLoop_kept : ∀ (fuel start last : Nat) (unclosed out : List (List Char)),
    last ≤ start → start ≤ text.length → text.length < fuel + start → Unclosed unclosed (text.drop start) →
    (stripLoop text fuel start last unclosed out).1.flatten ++ text.drop
    (stripLoop text fuel start last unclosed out).2 =
      out.flatten ++ (slice text last start ++ keptFrom text start) := by
  intro fuel
  induction fuel with
  | zero => intro start last unclosed out _ hstart hfuel; omega
  | succ fuel ih =>
    intro start last unclosed out hlast hstart hfuel hmemo
    have htake : (text.take start).reverse.length = start := by rw [List.length_reverse, List.length_take_of_le hstart]
    rw [stripLoop]
    cases hsearch : search thinkOpenRe (text.take start).reverse (text.drop start) with
    | none =>
      rw [keptFrom, keptAfter_eq_self (no_block_of_search_none hsearch), slice_append_drop text hlast]
    | some opening =>
      obtain ⟨u, tag, w, rest, hdrop, hopening, hat, hgroup, hbefore⟩ := search_thinkOpenRe hsearch
      rw [htake] at hat
      have hlen := congrArg List.length hdrop
      simp only [List.length_drop, List.length_append] at hlen
      have hw := List.length_pos_iff.mpr hopening.ne_nil
      have hkept : keptFrom text start = u ++ keptFrom text opening.start := by
        rw [hat]
        exact keptFrom_add ⟨_, hdrop.symm⟩ hbefore
      have hslice : slice text start opening.start = u := by
        rw [hat, slice, hdrop, Nat.add_sub_cancel_left, List.take_left]
      have hahead : text.drop opening.start = w ++ rest := by
        rw [hat, ← List.drop_drop, hdrop, List.drop_left]
      have hlater : Unclosed unclosed (text.drop opening.start) := by
        rw [hdrop] at hmemo
        rw [hahead]
        exact hmemo.later
      simp only [hgroup, Option.getD_some]
      cases hblock : (if lower tag ∈ unclosed then none else
          matchBlock (text.take opening.start).reverse (text.drop opening.start)) with
      | none =>
        have hnone : ¬ StartsBlock (text.drop opening.start) := by
          split at hblock
          · next hmem =>
            rintro ⟨tag', w', x, c, rest', hopening', hclosing, htext⟩
            obtain ⟨rfl, -, -⟩ := hopening.unique hopening' (hahead.symm.trans htext)
            exact hlater tag hopening.1 hmem (w' ++ x) c rest' (by rw [htext, List.append_assoc]) hclosing
          · exact matchBlock_eq_none.mp hblock
        obtain ⟨d, hd⟩ : ∃ d, text.drop opening.start = d :: text.drop (opening.start + 1) :=
          ⟨_, List.drop_eq_getElem_cons (by omega)⟩
        have hone : keptFrom text opening.start = [d] ++ keptFrom text (opening.start + 1) := by
          refine keptFrom_add (u := [d]) ⟨_, hd.symm⟩ fun x y hxy hlt => ?_
          obtain rfl := List.length_eq_zero_iff.mp (Nat.lt_one_iff.mp hlt)
          rwa [List.nil_append, ← hxy] at *
        have hsliced : slice text opening.start (opening.start + 1) = [d] := by
          rw [slice, hd, Nat.add_sub_cancel_left]
          rfl
        have hmemo' : Unclosed (lower tag :: unclosed) (text.drop (opening.start + 1)) :=
          Unclosed.cons (hd ▸ hlater) hopening (hd.symm.trans hahead) (hd ▸ hnone)
        simp only
        rw [ih _ _ _ _ (by omega) (by omega) (by omega) hmemo', hkept, hone,
          ← slice_append_slice text (show last ≤ opening.start by omega) (Nat.le_succ _),
          ← slice_append_slice text hlast (show start ≤ opening.start by omega), hslice, hsliced]
        simp
      | some t =>
        split at hblock
        · cases hblock
        · obtain ⟨hless, hpos, hsame⟩ := keptFrom_block (by omega) hblock
          have hmemo' : Unclosed unclosed (text.drop t.pos) := by
            have hsuffix : text.drop opening.start = slice text opening.start t.pos ++ text.drop t.pos :=
              (slice_append_drop text (by omega)).symm
            rw [hsuffix] at hlater
            exact hlater.later
          simp only
          rw [ih _ _ _ _ (by omega) hpos (by omega) hmemo', hkept, hsame,
            ← slice_append_slice text hlast (show start ≤ opening.start by omega), hslice]
          simp [slice]

/-- Where nothing is put out, nothing was taken out. -/
theorem stripLoop_out (text : List Char) : ∀ (fuel start last : Nat) (unclosed out : List (List Char)),
    (stripLoop text fuel start last unclosed out).1 = [] →
      out = [] ∧ (stripLoop text fuel start last unclosed out).2 = last := by
  intro fuel
  induction fuel with
  | zero => exact fun start last unclosed out h => ⟨h, rfl⟩
  | succ fuel ih =>
    intro start last unclosed out
    rw [stripLoop]
    cases search thinkOpenRe (text.take start).reverse (text.drop start) with
    | none => exact fun h => ⟨h, rfl⟩
    | some opening =>
      simp only
      split
      · exact ih _ _ _ _
      · intro h
        exact absurd (ih _ _ _ _ h).1 (by simp)

/-- The loop is the substitution. -/
theorem stripReasoningBlocks_eq (text : List Char) : stripReasoningBlocks text = subBlocks text := by
  have hsub : subBlocks text = keptFrom text 0 := rfl
  rw [stripReasoningBlocks, hsub]
  split
  · next h =>
    have hnone : ∀ x y, text = x ++ y → ¬ StartsBlock y := by
      rintro x _ hxy ⟨tag, w, z, c, rest, ⟨-, sp, -, rfl⟩, -, rfl⟩
      have hmem : '<' ∈ text := by rw [hxy]; simp
      obtain rfl | h := h
      · cases hmem
      · exact h hmem
    exact (keptAfter_eq_self hnone).symm
  · have hkept := stripLoop_kept (text.length + 1) 0 0 [] [] (Nat.le_refl 0) (Nat.zero_le _) (by omega)
      (show Unclosed [] (text.drop 0) from fun tag _ hmem => absurd hmem List.not_mem_nil)
    have hout := stripLoop_out text (text.length + 1) 0 0 [] []
    rw [List.flatten_nil, List.nil_append, slice, Nat.sub_self, List.take_zero, List.nil_append] at hkept
    simp only
    split
    · next hnil =>
      rw [← hkept, hnil, (hout hnil).2]
      rfl
    · rw [← hkept]
      simp

/-! ## The nearest closing tag -/

theorem matchBlock_nearest {t : State} (h : matchBlock behind ahead = some t) :
    ∃ tag w x c, IsOpening tag w ∧ IsClosing tag c ∧ ahead = w ++ (x ++ (c ++ t.ahead)) ∧
      ∀ x' c' rest', x ++ (c ++ t.ahead) = x' ++ (c' ++ rest') → IsClosing tag c' → x.length ≤ x'.length := by
  rw [matchBlock, blockStates, List.head?_flatMap] at h
  obtain ⟨s, hs, hhead⟩ := List.exists_of_findSome?_eq_some h
  obtain ⟨tag, w, hopening, hw, hgroup⟩ := mem_run_thinkOpenRe hs
  rw [hgroup, Option.getD_some, run] at hhead
  obtain ⟨x, v, hahead, ht, hbefore⟩ := lazy_head hhead
  obtain ⟨c, hc, -, hclosing⟩ := thinkCloseRe_yields tag ht
  have hv : v = c ++ t.ahead := hc.2
  have hrest : s.ahead = x ++ (c ++ t.ahead) := by rw [hahead, hv]
  refine ⟨tag, w, x, c, hopening, hclosing, by rw [← hrest]; exact hw.2, fun x' c' rest' heq hclosing' => ?_⟩
  by_contra hlt
  have hnil := hbefore x' (c' ++ rest') (hrest.trans heq) (Nat.lt_of_not_le hlt)
  have hmem := thinkCloseRe_accepts hclosing' (x'.reverse ++ s.behind) rest' s.groups
  rw [hnil] at hmem
  cases hmem

theorem removal_keptAfter (n : Nat) : ∀ {behind ahead : List Char}, ahead.length ≤ n →
    Removal ahead (keptAfter behind ahead) := by
  induction n with
  | zero =>
    intro behind ahead h
    rw [List.length_eq_zero_iff.mp (Nat.le_zero.mp h)]
    exact .done
  | succ n ih =>
    intro behind ahead h
    cases hmatch : matchBlock behind ahead with
    | some t =>
      obtain ⟨tag, w, x, c, hopening, hclosing, hahead, hnearest⟩ := matchBlock_nearest hmatch
      have hlen := congrArg List.length hahead
      have hpos := List.length_pos_iff.mpr hopening.ne_nil
      simp only [List.length_append] at hlen
      rw [keptAfter_block hmatch]
      nth_rewrite 1 [hahead]
      exact .remove hopening hclosing hnearest (ih (by omega))
    | none =>
      cases ahead with
      | nil => exact .done
      | cons c rest =>
        have hnone := matchBlock_eq_none.mp hmatch
        rw [keptAfter_cons hnone]
        exact .keep hnone (ih (by simpa using h))

theorem IsClosing.unique {tag c c' x x' : List Char} (h : IsClosing tag c) (h' : IsClosing tag c')
    (heq : c ++ x = c' ++ x') : c = c' ∧ x = x' := by
  obtain ⟨name, sp, hname, hsp, rfl⟩ := h
  obtain ⟨name', sp', hname', hsp', rfl⟩ := h'
  have hlen : name.length = name'.length := by
    have hsame := congrArg List.length (hname.trans hname'.symm)
    simpa using hsame
  have heq : name ++ (sp ++ '>' :: x) = name' ++ (sp' ++ '>' :: x') := by simpa using heq
  obtain ⟨rfl, hrest⟩ := List.append_inj heq hlen
  have hmark : ∀ x : List Char, ∀ c ∈ ('>' :: x).head?, isSpace c = false := by
    rintro x c hc
    rw [← Option.some.inj hc]
    decide
  obtain ⟨rfl, hend⟩ := cut_unique hsp hsp' (hmark x) (hmark x') hrest
  exact ⟨rfl, (List.cons_eq_cons.mp hend).2⟩

theorem Removal.unique {out out' : List Char} (h : Removal text out) (h' : Removal text out') : out = out' := by
  induction h generalizing out' with
  | done =>
    generalize htext : ([] : List Char) = text at h'
    cases h' with
    | done => rfl
    | keep => cases htext
    | remove hopening => exact absurd (List.append_eq_nil_iff.mp htext.symm).1 hopening.ne_nil
  | @keep c rest out hnone hrest ih =>
    generalize htext : c :: rest = text at h'
    cases h' with
    | done => cases htext
    | keep hnone' hrest' =>
      obtain ⟨rfl, rfl⟩ := List.cons_eq_cons.mp htext
      rw [ih hrest']
    | remove hopening hclosing => exact absurd ⟨_, _, _, _, _, hopening, hclosing, htext⟩ hnone
  | @remove tag w x c rest out hopening hclosing hnearest hrest ih =>
    generalize htext : w ++ (x ++ (c ++ rest)) = text at h'
    cases h' with
    | done => exact absurd (List.append_eq_nil_iff.mp htext).1 hopening.ne_nil
    | keep hnone' => exact absurd ⟨_, _, _, _, _, hopening, hclosing, htext.symm⟩ hnone'
    | remove hopening' hclosing' hnearest' hrest' =>
      obtain ⟨rfl, rfl, hx⟩ := hopening.unique hopening' htext
      have hlen := Nat.le_antisymm (hnearest _ _ _ hx hclosing') (hnearest' _ _ _ hx.symm hclosing)
      obtain ⟨rfl, hc⟩ := List.append_inj hx hlen
      obtain ⟨rfl, rfl⟩ := hclosing.unique hclosing' hc
      exact ih hrest'

theorem removal_iff {out : List Char} : Removal text out ↔ out = subBlocks text := by
  have hremoval : Removal text (subBlocks text) := removal_keptAfter text.length (Nat.le_refl _)
  constructor
  · exact fun h => h.unique hremoval
  · rintro rfl
    exact hremoval

/-- The loop does what the substitution does, which is to take out the blocks from left to right. -/
theorem strip_is_substitution (text : List Char) :
    stripReasoningBlocks text = subBlocks text ∧ ∀ out, Removal text out ↔ out = stripReasoningBlocks text := by
  rw [stripReasoningBlocks_eq]
  exact ⟨rfl, fun out => removal_iff⟩

example : stripReasoningBlocks "a<think>b<THINK >c</thinK>d</think>e".toList = "ad</think>e".toList := by decide +kernel

end Escalation
