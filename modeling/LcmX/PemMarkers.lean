import LcmX.PemScan
import Mathlib

/-!
# Markers and body lines

What the line model says of a line that is exactly a marker, and of a line of key
material. Both are plain ASCII without escapes, so no line around them changes it.
-/
namespace Pem

open Regex PyText

/-! ## Letter cases -/

/-- `-----`. -/
def dashes : List Char := List.replicate 5 '-'

theorem toNat_lt_of_toLower {c : Char} (h : c.toLower.toNat < 128) : c.toNat < 128 := by
  rw [Char.toLower] at h
  split at h
  · next hupper =>
    have hZ : ('Z').val.toNat = 90 := rfl
    have hval : c.toNat = c.val.toNat := rfl
    have hle := UInt32.le_iff_toNat_le.mp hupper.2
    omega
  · exact h

/-- Letters of one case are raised to the same letters. -/
theorem upper_of_lower {w v : List Char} (hascii : ∀ c ∈ v, c.toNat < 128)
    (h : w.map Char.toLower = v.map Char.toLower) :
    upper w = v.map Char.toUpper := by
  have htable : ∀ n < 128, upperChar (Char.ofNat n) = [(Char.ofNat n).toLower.toUpper] ∧
      (Char.ofNat n).toLower.toNat < 128 ∧ (Char.ofNat n).toLower.toUpper = (Char.ofNat n).toUpper := by decide +kernel
  induction w generalizing v with
  | nil =>
    rw [List.map_nil, eq_comm, List.map_eq_nil_iff] at h
    rw [h]
    rfl
  | cons c w ih =>
    cases v with
    | nil => cases h
    | cons d v =>
      obtain ⟨hcd, hwv⟩ := List.cons.inj h
      have hd := htable d.toNat (hascii d List.mem_cons_self)
      have hc := htable c.toNat (toNat_lt_of_toLower (by rw [hcd]; simpa using hd.2.1))
      rw [Char.ofNat_toNat] at hc hd
      rw [upper, List.flatMap_cons, ← upper, hc.1,
        ih (fun e he => hascii e (List.mem_cons_of_mem _ he)) hwv, hcd, hd.2.2]
      rfl

theorem lower_of_lower {w v : List Char} (hascii : ∀ c ∈ v, c.toNat < 128)
    (h : w.map Char.toLower = v.map Char.toLower) :
    lower w = v.map Char.toLower := by
  have htable : ∀ n < 128, lowerChar (Char.ofNat n) = [(Char.ofNat n).toLower] ∧
      (Char.ofNat n).toLower.toNat < 128 := by
    decide +kernel
  induction w generalizing v with
  | nil => rw [← h]; rfl
  | cons c w ih =>
    cases v with
    | nil => cases h
    | cons d v =>
      obtain ⟨hcd, hwv⟩ := List.cons.inj h
      have hd := htable d.toNat (hascii d List.mem_cons_self)
      have hc := htable c.toNat (toNat_lt_of_toLower (by rw [hcd]; simpa using hd.2))
      rw [Char.ofNat_toNat] at hc
      rw [lower, List.flatMap_cons, ← lower, hc.1, ih (fun e he => hascii e (List.mem_cons_of_mem _ he)) hwv, hcd]
      rfl

theorem ignoringCase_of_lower {w v : List Char} (h : v.map Char.toLower = w.map Char.toLower) :
    List.Forall₂ (fun c d => ignoringCase c d = true) w v := by
  induction w generalizing v with
  | nil =>
    rw [List.map_nil, List.map_eq_nil_iff] at h
    rw [h]
    exact .nil
  | cons c w ih =>
    cases v with
    | nil => cases h
    | cons d v =>
      obtain ⟨hcd, hwv⟩ := List.cons.inj h
      exact .cons (by simp [ignoringCase, hcd]) (ih hwv)

/-! ## Markers -/

/-- A marker of a private key: its words in any letter case, around a label. -/
structure Marker (word : List Char) where
  opening : List Char
  label : List Char
  key : List Char
  opening_eq : opening.map Char.toLower = (word ++ [' ']).map Char.toLower
  label_ok : ∀ c ∈ label, isAsciiAlnum c = true ∨ c = ' '
  key_eq : key.map Char.toLower = "PRIVATE KEY".toList.map Char.toLower

/-- The two words a marker starts with. -/
def IsMarkerWord (word : List Char) : Prop := word = "BEGIN".toList ∨ word = "END".toList

namespace Marker

variable {word : List Char} (m : Marker word)

def core : List Char := m.opening ++ (m.label ++ m.key)

def text : List Char := dashes ++ (m.core ++ dashes)

/-- The characters between the dashes. -/
def isCoreChar (c : Char) : Bool := isAsciiAlnum c || c = ' '

theorem coreChar_of_lower {w v : List Char} (hascii : ∀ c ∈ v, isCoreChar c = true)
    (h : w.map Char.toLower = v.map Char.toLower) : ∀ c ∈ w, isCoreChar c = true := by
  have htable : ∀ n < 128, (isCoreChar (Char.ofNat n).toLower = isCoreChar (Char.ofNat n)) ∧
      (isCoreChar (Char.ofNat n) = true → (Char.ofNat n).toLower.toNat < 128) := by decide +kernel
  have hlow : ∀ c, isCoreChar c = true → c.toNat < 128 := by
    intro c hc
    simp only [isCoreChar, Bool.or_eq_true, decide_eq_true_eq] at hc
    rcases hc with hc | rfl
    · simp only [isAsciiAlnum, Char.isAlpha, Char.isUpper, Char.isLower, Char.isDigit,
        Bool.or_eq_true, Bool.and_eq_true,
        decide_eq_true_eq, ge_iff_le, UInt32.le_iff_toNat_le] at hc
      have hval : c.toNat = c.val.toNat := rfl
      have hZ : ('Z').val.toNat = 90 := rfl
      have hz : ('z').val.toNat = 122 := rfl
      have h9 : ('9').val.toNat = 57 := rfl
      omega
    · decide
  intro c hc
  obtain ⟨d, hd, hcd⟩ : ∃ d ∈ v, d.toLower = c.toLower := by
    have hmem : c.toLower ∈ v.map Char.toLower := h ▸ List.mem_map_of_mem hc
    exact List.mem_map.mp hmem
  have hdcore := hascii d hd
  have hdtable := htable d.toNat (hlow d hdcore)
  rw [Char.ofNat_toNat] at hdtable
  have hctable := htable c.toNat (toNat_lt_of_toLower (hcd ▸ hdtable.2 hdcore))
  rw [Char.ofNat_toNat] at hctable
  rw [← hctable.1, ← hcd, hdtable.1, hdcore]

theorem core_chars (hword : IsMarkerWord word) : ∀ c ∈ m.core, isCoreChar c = true := by
  intro c hc
  simp only [core, List.mem_append] at hc
  rcases hc with hc | hc | hc
  · refine coreChar_of_lower ?_ m.opening_eq c hc
    rcases hword with rfl | rfl <;> exact forall_mem_of_all (by decide)
  · have hlabel := m.label_ok c hc
    simpa [isCoreChar] using hlabel
  · exact coreChar_of_lower (forall_mem_of_all (by decide)) m.key_eq c hc

theorem core_ne_dash (hword : IsMarkerWord word) : '-' ∉ m.core :=
  fun h => absurd (m.core_chars hword _ h) (by decide)

theorem opening_ne_nil : m.opening ≠ [] := by
  intro h
  have hlen := congrArg List.length m.opening_eq
  simp [h] at hlen

theorem core_ne_nil : m.core ≠ [] := by simp [core, m.opening_ne_nil]

theorem length_text : m.text.length = m.core.length + 10 := by
  simp [text, dashes]

theorem text_core {k : Nat} (hk : k < m.core.length) : m.text[k + 5]? = m.core[k]? := by
  have hlen : dashes.length = 5 := by simp [dashes]
  rw [text, List.getElem?_append_right (by omega), hlen, Nat.add_sub_cancel, List.getElem?_append_left hk]

/-- Dashes with something behind them stand only at the front of a marker. -/
theorem dashes_at_front (hword : IsMarkerWord word) {u v : List Char} {x : Char}
    (h : m.text = u ++ (dashes ++ x :: v)) :
    u = [] := by
  have hcore : ∀ k c, m.core[k]? = some c → c ≠ '-' := fun k c hc hdash =>
    m.core_ne_dash hword (hdash ▸ List.mem_of_getElem? hc)
  have hdash : ∀ k < 5, m.text[u.length + k]? = some '-' := by
    intro k hk
    rw [h, List.getElem?_append_right (by omega), Nat.add_sub_cancel_left,
      List.getElem?_append_left (by simpa [dashes] using hk),
      dashes, List.getElem?_replicate, if_pos hk]
  have hlength : u.length + 6 ≤ m.text.length := by
    rw [h]
    simp [dashes]
  rw [m.length_text] at hlength
  have hpos := List.length_pos_of_ne_nil m.core_ne_nil
  by_contra hne
  have hu := List.length_pos_of_ne_nil hne
  by_cases hnear : u.length ≤ 5
  · -- the first character of the core stands between these dashes
    have hat := hdash (5 - u.length) (by omega)
    rw [show u.length + (5 - u.length) = 0 + 5 by omega, m.text_core hpos] at hat
    exact hcore _ _ hat rfl
  · have hat := hdash 0 (by omega)
    rw [show u.length + 0 = (u.length - 5) + 5 by omega, m.text_core (by omega)] at hat
    exact hcore _ _ hat rfl

theorem text_eq : m.text = (dashes ++ m.opening) ++ (m.label ++ (m.key ++ dashes)) := by
  simp [text, core]

/-- The marker pattern finds the marker at the front of its own text. -/
theorem match_marker : matchText (markerRe word)
    [] m.text = some (found ⟨[], m.text, []⟩ ⟨m.text.reverse, [], []⟩) := by
  have hopening : (dashes ++ m.opening).map Char.toLower = ("-----".toList ++ word ++ [' ']).map Char.toLower := by
    rw [List.map_append, m.opening_eq]
    simp [dashes]
  have hkey : (m.key ++ dashes).map Char.toLower = "PRIVATE KEY-----".toList.map Char.toLower := by
    rw [List.map_append, m.key_eq]
    simp [dashes]
  have hkeyLength : (m.key ++ dashes).length = 16 := by
    have hlen := congrArg List.length hkey
    simpa using hlen
  have hlabel : ∀ c ∈ m.label, isLabelChar c = true := by
    intro c hc
    rcases m.label_ok c hc with h | h <;> simp [isLabelChar, isAlnumIgnoringCase, h]
  have hlast : run (litIgnoringCase "PRIVATE KEY-----".toList)
      ⟨m.label.reverse ++ ((dashes ++ m.opening).reverse ++ []), m.key ++ dashes, []⟩ = [⟨m.text.reverse, [], []⟩] := by
    rw [← List.append_nil (m.key ++ dashes), run_litIgnoringCase _ [] [] (ignoringCase_of_lower hkey), m.text_eq]
    simp
  have hfirst : ((run (star (.char isLabelChar))
    ⟨(dashes ++ m.opening).reverse ++ [], m.label ++ (m.key ++ dashes), []⟩).flatMap
      (run (litIgnoringCase "PRIVATE KEY-----".toList))).head? = some ⟨m.text.reverse, [], []⟩ := by
    apply run_greedy_back m.label hlabel
    · -- behind the label the rest is too short
      intro u v hv hreach
      rw [List.eq_nil_iff_forall_not_mem]
      intro t ht
      obtain ⟨w, hw, hall⟩ := litIgnoringCase_reaches ht
      have hwlen := hall.length_eq
      have hahead := congrArg List.length hreach.2
      have hrest := congrArg List.length hw.2
      have hvlen := List.length_pos_of_ne_nil hv
      simp only [List.length_append] at hahead hrest hkeyLength
      simp at hwlen
      omega
    · rw [hlast]
      rfl
  rw [matchText, matchAt, markerRe, run, m.text_eq, run_litIgnoringCase [] _ [] (ignoringCase_of_lower hopening),
    List.flatMap_singleton, run, hfirst, ← m.text_eq]
  rfl

theorem search_marker : search (markerRe word) [] m.text = some (found ⟨[], m.text, []⟩ ⟨m.text.reverse, [], []⟩) :=
  search_of_matchText m.match_marker

@[simp] theorem found_start : (found ⟨[], m.text, []⟩ ⟨m.text.reverse, [], []⟩).start = 0 := rfl

@[simp] theorem found_stop : (found ⟨[], m.text, []⟩ ⟨m.text.reverse, [], []⟩).stop = m.text.length := by
  simp [found, State.pos]

/-- A marker of one word holds none of the other. -/
theorem search_other {other : List Char} (hword : IsMarkerWord word) {c d : Char} {w v : List Char} (hw : word = c :: w)
    (hother : other = d :: v) (hne : ∀ x, ignoringCase d x = true → x.toLower ≠ c.toLower) :
    search (markerRe other) [] m.text = none := by
  apply search_eq_none
  intro u rest htext
  rw [List.eq_nil_iff_forall_not_mem]
  intro t ht
  simp only [markerRe, run, List.mem_flatMap] at ht
  obtain ⟨s, hs, -⟩ := ht
  obtain ⟨front, hfront, hall⟩ := litIgnoringCase_reaches hs
  have hfive : "-----".toList ++ other ++ [' '] = '-' :: '-' :: '-' :: '-' :: '-' :: d :: (v ++ [' ']) := by
    rw [hother]
    simp
  rw [hfive] at hall
  have hdash : ∀ x, ignoringCase '-' x = true → x = '-' := by
    intro x hx
    have hlower : x.toLower = '-' := by simpa [ignoringCase] using hx
    have hlow : x.toNat < 128 := toNat_lt_of_toLower (by rw [hlower]; decide)
    have htable : ∀ n < 128, (Char.ofNat n).toLower = '-' → Char.ofNat n = '-' := by decide +kernel
    simpa using htable x.toNat hlow (by simpa using hlower)
  obtain ⟨x₁, front₁, h₁, hall₁, rfl⟩ := List.forall₂_cons_left_iff.mp hall
  obtain ⟨x₂, front₂, h₂, hall₂, rfl⟩ := List.forall₂_cons_left_iff.mp hall₁
  obtain ⟨x₃, front₃, h₃, hall₃, rfl⟩ := List.forall₂_cons_left_iff.mp hall₂
  obtain ⟨x₄, front₄, h₄, hall₄, rfl⟩ := List.forall₂_cons_left_iff.mp hall₃
  obtain ⟨x₅, front₅, h₅, hall₅, rfl⟩ := List.forall₂_cons_left_iff.mp hall₄
  obtain ⟨x, front, hx, -, rfl⟩ := List.forall₂_cons_left_iff.mp hall₅
  have hat : m.text = u ++ (dashes ++ x :: (front ++ s.ahead)) := by
    have hrest : rest = x₁ :: x₂ :: x₃ :: x₄ :: x₅ :: x :: (front ++ s.ahead) := hfront.2
    rw [htext, hrest, hdash _ h₁, hdash _ h₂, hdash _ h₃, hdash _ h₄, hdash _ h₅]
    rfl
  -- the word of this marker would be the other one
  have hfrontOnly := m.dashes_at_front hword hat
  rw [hfrontOnly, text, List.nil_append, List.append_cancel_left_eq] at hat
  obtain ⟨y, opening, hopening⟩ := List.exists_cons_of_ne_nil m.opening_ne_nil
  have hxy : y = x := by
    have hcore : m.core = y :: (opening ++ (m.label ++ m.key)) := by rw [core, hopening]; rfl
    rw [hcore] at hat
    exact (List.cons.inj hat).1
  have hlower := m.opening_eq
  rw [hopening, hw] at hlower
  exact hne x hx (hxy ▸ (List.cons.inj hlower).1)

theorem text_chars (hword : IsMarkerWord word) : ∀ c ∈ m.text, isCoreChar c = true ∨ c = '-' := by
  intro c hc
  simp only [text, dashes, List.mem_append, List.mem_replicate] at hc
  rcases hc with ⟨-, rfl⟩ | hc | ⟨-, rfl⟩
  · exact .inr rfl
  · exact .inl (m.core_chars hword c hc)
  · exact .inr rfl

theorem hasPrivateKey_text : hasPrivateKey m.text = true := by
  have hupper : upper (m.key ++ dashes) = "PRIVATE KEY-----".toList.map Char.toUpper := by
    apply upper_of_lower (forall_mem_of_all (by decide))
    rw [List.map_append, m.key_eq]
    simp [dashes]
  have hsplit : upper m.text = upper (dashes ++ m.opening ++ m.label) ++ upper (m.key ++ dashes) := by
    rw [m.text_eq]
    simp [upper]
  rw [hasPrivateKey, contains, decide_eq_true_eq, hsplit, hupper]
  exact (List.suffix_append _ _).isInfix

theorem lower_text : "private key-----".toList <:+: lower m.text := by
  have hlower : lower (m.key ++ dashes) = "PRIVATE KEY-----".toList.map Char.toLower := by
    apply lower_of_lower (forall_mem_of_all (by decide))
    rw [List.map_append, m.key_eq]
    simp [dashes]
  have hsplit : lower m.text = lower (dashes ++ m.opening ++ m.label) ++ lower (m.key ++ dashes) := by
    rw [m.text_eq]
    simp [lower]
  rw [hsplit, hlower]
  exact (List.suffix_append _ _).isInfix

end Marker

/-! ## Lines that are markers -/

section

variable {word : List Char} (m : Marker word) {indent : List Char}

theorem strip_indented (hindent : ∀ c ∈ indent, isHorizontal c = true) :
    stripBy isHorizontal (indent ++ m.text) = m.text := by
  have hfront : (indent ++ m.text).dropWhile isHorizontal = m.text := by
    rw [List.dropWhile_append_of_pos hindent]
    rfl
  rw [stripBy, hfront, List.rdropWhile_eq_self_iff]
  intro hne
  have hlast : m.text.getLast hne = '-' := by simp [Marker.text, dashes]
  rw [hlast]
  decide

theorem indent_length (hindent : ∀ c ∈ indent, isHorizontal c = true) :
    ((indent ++ m.text).takeWhile fun c => some c ≠ m.text.head?).length = indent.length := by
  have hall : ∀ c ∈ indent, decide (some c ≠ m.text.head?) = true := by
    intro c hc
    have hhead : m.text.head? = some '-' := rfl
    rw [hhead, decide_eq_true_eq]
    intro hdash
    have hc := hindent c hc
    rw [Option.some.inj hdash] at hc
    exact absurd hc (by decide)
  rw [List.takeWhile_append_of_pos hall]
  have hstop : m.text.takeWhile (fun c => decide (some c ≠ m.text.head?)) = [] := by
    rw [Marker.text, dashes]
    simp [List.replicate]
  rw [hstop, List.append_nil]

theorem text_ne_nil : m.text ≠ [] := fun h => by
  have hlen := congrArg List.length h
  rw [m.length_text] at hlen
  simp at hlen

theorem classify_begin (b : Marker "BEGIN".toList) (hindent : ∀ c ∈ indent, isHorizontal c = true) (lineStart : Nat) :
    classifySegment lineStart (indent ++ b.text) =
      [⟨.beginMarker, lineStart + indent.length, lineStart + indent.length + b.text.length, lineStart, none⟩] := by
  have hends : search endRe [] b.text = none := by
    refine b.search_other (.inl rfl) (c := 'B') (d := 'E') (by simp; rfl) (by simp; rfl) ?_
    intro x hx
    have hlower : x.toLower = 'e' := by simpa [ignoringCase] using hx
    rw [hlower]
    decide
  rw [classifySegment, strip_indented b hindent, b.hasPrivateKey_text, if_pos rfl, indent_length b hindent,
    if_neg (text_ne_nil b), classifyMarker, beginRe, b.search_marker, hends]
  have hnone : pemLeadingBodyRun [] = ⟨false, false, 0⟩ := rfl
  simp [Option.filter_some, hnone]

theorem classify_end (e : Marker "END".toList) (hindent : ∀ c ∈ indent, isHorizontal c = true) (lineStart : Nat) :
    classifySegment lineStart (indent ++ e.text) =
      [⟨.endMarker, lineStart + indent.length, lineStart + indent.length + e.text.length, lineStart,
        some (lineStart + indent.length + e.text.length)⟩] := by
  have hbegins : search beginRe [] e.text = none := by
    refine e.search_other (.inr rfl) (c := 'E') (d := 'B') (by simp; rfl) (by simp; rfl) ?_
    intro x hx
    have hlower : x.toLower = 'b' := by simpa [ignoringCase] using hx
    rw [hlower]
    decide
  rw [classifySegment, strip_indented e hindent, e.hasPrivateKey_text, if_pos rfl, indent_length e hindent,
    if_neg (text_ne_nil e), classifyMarker, endRe, e.search_marker, hbegins]
  simp

end

/-! ## Lines of key material -/

section

theorem mem_bodyChars {line : List Char} (h : isBodyChars line = true) : line ≠ [] ∧ ∀ c ∈ line,
    isBodyChar c = true ∨ c = '=' := by
  simp only [isBodyChars, decide_eq_true_eq] at h
  obtain ⟨hbody, hpadding⟩ := h
  constructor
  · rintro rfl
    exact hbody rfl
  · intro c hc
    rw [← List.takeWhile_append_dropWhile (p := isBodyChar) (l := line), List.mem_append] at hc
    cases hc with
    | inl hc => exact .inl (List.mem_takeWhile_imp hc)
    | inr hc =>
      rcases hpadding with h | h | h <;> rw [h] at hc <;> simp at hc <;> exact .inr hc

/-- What a character of key material is not. -/
structure PlainChar (c : Char) : Prop where
  horizontal : isHorizontal c = false
  space : isSpace c = false
  lineBreak : isLineBreak c = false
  backslash : c ≠ '\\'
  dash : c ≠ '-'
  colon : c ≠ ':'
  quote : (c = '"' ∨ c = '\'') = False
  mark : (decide (c = '>') || decide (c = '|') || decide (c = '-')) = false
  upper : upperChar c ≠ ['-'] ∧ (upperChar c).length = 1

theorem plainChar_of_body {c : Char} (h : isBodyChar c = true ∨ c = '=') : PlainChar c := by
  have hlow : c.toNat < 128 := by
    rcases h with h | rfl
    · simp only [isBodyChar, isAsciiAlnum, Char.isAlpha, Char.isUpper, Char.isLower, Char.isDigit, Bool.or_eq_true,
        Bool.and_eq_true, decide_eq_true_eq, ge_iff_le, UInt32.le_iff_toNat_le] at h
      have hval : c.toNat = c.val.toNat := rfl
      have hZ : ('Z').val.toNat = 90 := rfl
      have hz : ('z').val.toNat = 122 := rfl
      have h9 : ('9').val.toNat = 57 := rfl
      rcases h with (h | rfl) | rfl
      · omega
      all_goals decide
    · decide
  have htable : ∀ n < 128, isBodyChar (Char.ofNat n) = true ∨ Char.ofNat n = '=' →
      isHorizontal (Char.ofNat n) = false ∧ isSpace (Char.ofNat n) = false ∧ isLineBreak (Char.ofNat n) = false ∧
      Char.ofNat n ≠ '\\' ∧ Char.ofNat n ≠ '-' ∧ Char.ofNat n ≠ ':' ∧ ¬ (Char.ofNat n = '"' ∨ Char.ofNat n = '\'') ∧
      (decide (Char.ofNat n = '>') || decide (Char.ofNat n = '|') || decide (Char.ofNat n = '-')) = false ∧
      upperChar (Char.ofNat n) ≠ ['-'] ∧ (upperChar (Char.ofNat n)).length = 1 := by decide +kernel
  have hc := htable c.toNat hlow
  rw [Char.ofNat_toNat] at hc
  obtain ⟨h₁, h₂, h₃, h₄, h₅, h₆, h₇, h₈, h₉, h₁₀⟩ := hc h
  exact ⟨h₁, h₂, h₃, h₄, h₅, h₆, eq_false h₇, h₈, h₉, h₁₀⟩

variable {line : List Char} (hline : ∀ c ∈ line, PlainChar c)
include hline

theorem strip_plain : stripBy isHorizontal line = line := by
  have hfront : line.dropWhile isHorizontal = line := by
    cases line with
    | nil => rfl
    | cons c rest => exact List.dropWhile_cons_of_neg (by simp [(hline c List.mem_cons_self).horizontal])
  rw [stripBy, hfront, List.rdropWhile_eq_self_iff]
  intro hne
  simp [(hline _ (List.getLast_mem hne)).horizontal]

theorem normalize_plain : normalizeEscapedSolidus line = line := by
  have hall : ∀ fuel (w : List Char), (∀ c ∈ w, PlainChar c) → unescapeSolidus fuel w = w := by
    intro fuel
    induction fuel with
    | zero => exact fun w _ => rfl
    | succ fuel ih =>
      intro w hw
      cases w with
      | nil => rfl
      | cons c w =>
        rw [unescapeSolidus, if_pos (hw c List.mem_cons_self).backslash,
          ih w fun d hd => hw d (List.mem_cons_of_mem _ hd)]
  exact hall _ line hline

theorem hasPrivateKey_plain : hasPrivateKey line = false := by
  rw [hasPrivateKey, contains, decide_eq_false_iff_not]
  intro hinside
  have hdash : '-' ∈ upper line := hinside.subset (by simp)
  obtain ⟨c, hc, hmem⟩ := List.mem_flatMap.mp hdash
  obtain ⟨hne, hone⟩ := (hline c hc).upper
  obtain ⟨d, hd⟩ := List.length_eq_one_iff.mp hone
  rw [hd] at hmem hne
  exact hne (by rw [List.mem_singleton.mp hmem])

theorem classifyGlued_plain (start : Nat) : classifyGlued start line = none := by
  have hnone : search anyMarkerRe [] line = none := by
    apply search_eq_none
    intro u v hsplit
    rw [List.eq_nil_iff_forall_not_mem]
    intro t ht
    simp only [anyMarkerRe, run, List.mem_flatMap] at ht
    obtain ⟨s, hs, -⟩ := ht
    have hstart : "-----".toList <+: v := isPrefix_of_run_lit hs
    have hdash : '-' ∈ line := by
      rw [hsplit]
      exact List.mem_append_right _ (hstart.subset (by simp))
    exact (hline _ hdash).dash rfl
  rw [classifyGlued, hnone]

theorem isArmorHeader_plain : isArmorHeader line = false := by
  have hnone : run armorHeaderRe ⟨[], line, []⟩ = [] := by
    rw [List.eq_nil_iff_forall_not_mem]
    intro t ht
    rw [armorHeaderRe, run, List.mem_flatMap] at ht
    obtain ⟨s, hs, hrest⟩ := ht
    simp only [run, List.mem_flatMap] at hrest
    obtain ⟨u, hu, -⟩ := hrest
    obtain ⟨w, hw⟩ := run_reaches _ hs
    obtain ⟨c, hc, hcolon, -⟩ := mem_next hu
    have hmem : ':' ∈ line := by
      have hahead : line = w ++ s.ahead := hw.2
      rw [hahead, hc.2, of_decide_eq_true hcolon]
      simp
    exact (hline _ hmem).colon rfl
  rw [isArmorHeader, fullmatch, hnone]
  rfl

theorem splitLast_plain : splitLast line = none := by
  have hrest : (line.reverse.dropWhile isSpace).dropWhile (fun c => !isSpace c) = [] := by
    rw [List.dropWhile_eq_nil_iff]
    intro c hc
    have hmem : c ∈ line := List.mem_reverse.mp ((List.dropWhile_sublist _).subset hc)
    simp [(hline c hmem).space]
  simp [splitLast, splitFirst, hrest]

omit hline

/-- The kind of a line of key material: by its width, unless it reads like a word. -/
def keyLineKind (line : List Char) : LineKind := if looksLikeEnglishToken line then .other else bodyKind line

theorem bodyKind_ne (line : List Char) : bodyKind line ≠ .other ∧ bodyKind line ≠ .armor := by
  rw [bodyKind]
  split <;> decide

theorem classify_body (hbody : isBodyChars line = true) (lineStart : Nat) :
    classifySegment lineStart line = [⟨keyLineKind line, lineStart, lineStart + line.length, lineStart, none⟩] := by
  obtain ⟨hne, hchars⟩ := mem_bodyChars hbody
  have hline : ∀ c ∈ line, PlainChar c := fun c hc => plainChar_of_body (hchars c hc)
  have hstart : (line.takeWhile fun c => some c ≠ line.head?) = [] := by
    cases line with
    | nil => rfl
    | cons c rest => simp
  have hkind : plainKind line = keyLineKind line := by
    rw [plainKind, normalize_plain hline, keyLineKind, isBodyToken, hbody, Bool.true_and]
    cases looksLikeEnglishToken line with
    | false => rfl
    | true => simp [hne, isArmorHeader_plain hline, splitLast_plain hline]
  rw [classifySegment, strip_plain hline, hasPrivateKey_plain hline, if_neg (by decide), hstart, if_neg hne,
    classifyGlued_plain hline, hkind]
  rfl

/-- Inside a block the line is key material, whatever it reads like. -/
theorem effectiveKind_body (hbody : isBodyChars line = true) {text : List Char} {start stop : Nat}
    (hslice : slice text start stop = line) (lineStart : Nat) :
    effectiveKind text ⟨keyLineKind line, start, stop, lineStart, none⟩ =
      if looksLikeEnglishToken line then .lenientB64 else bodyKind line := by
  obtain ⟨hne, hchars⟩ := mem_bodyChars hbody
  have hline : ∀ c ∈ line, PlainChar c := fun c hc => plainChar_of_body (hchars c hc)
  rw [effectiveKind, keyLineKind]
  cases henglish : looksLikeEnglishToken line with
  | false =>
    have hkind := bodyKind_ne line
    simp [hkind.1, hkind.2]
  | true =>
    have hmark : line.dropWhile (fun c => decide (c = '>') || decide (c = '|') || decide (c = '-')) = line := by
      cases line with
      | nil => rfl
      | cons c rest => exact List.dropWhile_cons_of_neg (by simp only [(hline c List.mem_cons_self).mark]; decide)
    have hcolon : ':' ∉ line := fun h => (hline _ h).colon rfl
    simp only [if_true, ne_eq, not_true, false_and, if_false, hslice, normalize_plain hline, hmark,
      strip_plain hline, hcolon,
      hbody, henglish]

end

end Pem
