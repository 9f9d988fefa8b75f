import LcmX.EmbeddingCanonical
import LcmX.SensitiveMatches

/-!
# Openers and redactions

The placeholders are made canonical before the patterns insert new ones. An opener that
the text leaves open takes the next closing bracket for its own, so a placeholder that
is inserted behind it becomes a part of it.
-/
namespace EmbeddingPrivacy

open Regex PyText Ingest Sensitive

/-! ## The fate of an opener -/

/-- What the patterns do to an opener: one of them replaces it, or it stays and something behind it is replaced
before the next closing bracket, or neither. -/
inductive Fate where
  | removed | struck | intact
  deriving DecidableEq, Repr

/-- A part is replaced before the next closing bracket. -/
def strikes : List Part → Bool
  | [] => false
  | .inr _ :: _ => true
  | .inl c :: ps => c ≠ ']' && strikes ps

/-- The parts in front of an offset of the text, and the parts from there on. -/
def locate : List Part → Nat → Option (List Part × List Part)
  | [], n => if n = 0 then some ([], []) else none
  | .inr w :: ps, n => if w.length ≤ n then (locate ps (n - w.length)).map fun p => (.inr w :: p.1, p.2) else none
  | .inl c :: ps, 0 => some ([], .inl c :: ps)
  | .inl c :: ps, n + 1 => (locate ps n).map fun p => (.inl c :: p.1, p.2)

def Fate.after (later : Fate) (struck : Bool) : Fate :=
  match later with
  | .intact => if struck then .struck else .intact
  | fate => fate

/-- The fate of an opener at an offset, from what later patterns do to it at its new offset. -/
def fateIn (placeholder : List Char → List Char) (ps : List Part) (o : List Char) (i : Nat)
    (later : Nat → Fate) : Fate :=
  match locate ps i with
  | none => .removed
  | some (a, b) =>
    if kept o <+: b then (later (redacted placeholder a).length).after (strikes (b.drop o.length)) else .removed

def placeholderFor (name : PatternName) : List Char → List Char := fun _ => embeddingPlaceholder name.text

section

variable (h : Host)

def fate (o : List Char) : List PatternName → List Char → Nat → Fate
  | [], _, _ => .intact
  | name :: names, text, i =>
    fateIn (placeholderFor name) (patternParts h.isWord name text) o i (fate o names (protectPattern h text name))

/-! ## Clear texts -/

/-- The parts that the key scanner makes of a text, when it is active. -/
def keyParts (active : List PatternName) (text : List Char) : List Part :=
  if .privateKey ∈ active then patternParts h.isWord .privateKey text else kept text

/-- The patterns behind the key scanner. -/
def otherNames (active : List PatternName) : List PatternName := (sortedNames active).filter (· ≠ .privateKey)

/-- The name of a placeholder ends with a dash, where it was cut off. -/
def IsCut (v : List Char) : Prop := ∃ P : Placed v, P.name.getLast? = some '-'

def Holds (fate : Fate) (p : Prop) : Prop :=
  match fate with
  | .removed => True
  | .struck => False
  | .intact => p

/-- Every opener that the key scanner leaves in the canonicalised text is replaced by a later
pattern, or nothing is replaced behind it before the next closing bracket and it has no cut name. -/
def IsClear (active : List PatternName) (text : List Char) : Prop :=
  ∀ a o b, keyParts h active (canonicalizePlaceholders text) = a ++ (kept o ++ b) → IsOpener o →
    Holds (fate h o (otherNames active)
      (redacted (placeholderFor .privateKey) (keyParts h active (canonicalizePlaceholders text)))
      (redacted (placeholderFor .privateKey) a).length) (strikes b = false ∧ ¬ IsCut (o ++ partsText b))

end

/-! ## Parts -/

theorem Holds.imp {f : Fate} {p q : Prop} (h : Holds f p) (hpq : p → q) : Holds f q := by
  cases f with
  | removed => trivial
  | struck => exact h
  | intact => exact hpq h

theorem holds_after (f : Fate) (struck : Bool) (p : Prop) : Holds (f.after struck) p ↔
    Holds f (struck = false ∧ p) := by
  cases f with
  | removed => exact Iff.rfl
  | struck => exact Iff.rfl
  | intact =>
    cases struck with
    | false => exact ⟨fun hp => ⟨rfl, hp⟩, And.right⟩
    | true => exact ⟨False.elim, fun hp => absurd hp.1 (by decide)⟩

/-- The three ways in which parts go on to a closing bracket. -/
theorem strikes_cases (b : List Part) :
    (strikes b = true ∧ ∃ t w rest, b = kept t ++ .inr w :: rest ∧ ']' ∉ t) ∨
    (strikes b = false ∧ ∃ t, b = kept t ∧ ']' ∉ t) ∨
    (strikes b = false ∧ ∃ t rest, b = kept t ++ .inl ']' :: rest ∧ ']' ∉ t) := by
  induction b with
  | nil => exact .inr (.inl ⟨rfl, [], rfl, by simp⟩)
  | cons part b ih =>
    cases part with
    | inr w => exact .inl ⟨rfl, [], w, b, rfl, by simp⟩
    | inl c =>
      by_cases hc : c = ']'
      · subst hc
        exact .inr (.inr ⟨rfl, [], b, rfl, by simp⟩)
      · have hstrikes : strikes (.inl c :: b) = strikes b := by simp [strikes, hc]
        have hmem : ∀ {t : List Char}, ']' ∉ t → ']' ∉ c :: t := fun ht hmem =>
          (List.mem_cons.mp hmem).elim (fun he => hc he.symm) ht
        rw [hstrikes]
        rcases ih with ⟨hs, t, w, rest, rfl, ht⟩ | ⟨hs, t, rfl, ht⟩ | ⟨hs, t, rest, rfl, ht⟩
        · exact .inl ⟨hs, c :: t, w, rest, rfl, hmem ht⟩
        · exact .inr (.inl ⟨hs, c :: t, rfl, hmem ht⟩)
        · exact .inr (.inr ⟨hs, c :: t, rest, rfl, hmem ht⟩)

/-- Locating splits the parts at the offset. -/
theorem locate_spec {ps : List Part} : ∀ {n : Nat} {a b : List Part}, locate ps n = some (a, b) →
    ps = a ++ b ∧ (partsText a).length = n := by
  induction ps with
  | nil =>
    intro n a b hloc
    rw [locate] at hloc
    split at hloc
    · next hn =>
      cases hloc
      exact ⟨rfl, hn.symm⟩
    · cases hloc
  | cons part ps ih =>
    intro n a b hloc
    cases part with
    | inr w =>
      rw [locate] at hloc
      split at hloc
      · next hle =>
        obtain ⟨⟨x, y⟩, hxy, heq⟩ := Option.map_eq_some_iff.mp hloc
        obtain ⟨hps, hlen⟩ := ih hxy
        cases heq
        refine ⟨by rw [hps]; rfl, ?_⟩
        rw [partsText_inr, List.length_append, hlen]
        omega
      · cases hloc
    | inl c =>
      cases n with
      | zero =>
        cases hloc
        exact ⟨rfl, rfl⟩
      | succ n =>
        obtain ⟨⟨x, y⟩, hxy, heq⟩ := Option.map_eq_some_iff.mp hloc
        obtain ⟨hps, hlen⟩ := ih hxy
        cases heq
        exact ⟨by rw [hps]; rfl, by rw [partsText_inl, List.length_cons, hlen]⟩

theorem locate_append (a : List Part) {c : Char} {b : List Part} :
    locate (a ++ .inl c :: b) (partsText a).length = some (a, .inl c :: b) := by
  induction a with
  | nil => rfl
  | cons part a ih =>
    cases part with
    | inr w =>
      rw [List.cons_append, locate, partsText_inr, List.length_append, if_pos (Nat.le_add_right ..),
        Nat.add_sub_cancel_left, ih]
      rfl
    | inl d =>
      rw [List.cons_append, partsText_inl, List.length_cons, locate, ih]
      rfl

/-! ## Openers of a redacted text -/

theorem isOpener_ne_nil {o : List Char} (ho : IsOpener o) : ∃ c rest, o = c :: rest := by
  obtain ⟨rest, rfl, -⟩ := ho.brackets
  exact ⟨_, rest, rfl⟩

/-- A text without an opening bracket at the front of redacted parts was kept. -/
theorem kept_of_redacted {name : PatternName} {ps : List Part} : ∀ {w rest : List Char}, '[' ∉ w →
    redacted (placeholderFor name) ps = w ++ rest → ∃ b, ps = kept w ++ b ∧
      rest = redacted (placeholderFor name) b := by
  induction ps with
  | nil =>
    intro w rest _ heq
    obtain ⟨rfl, rfl⟩ := List.append_eq_nil_iff.mp heq.symm
    exact ⟨[], rfl, rfl⟩
  | cons part ps ih =>
    intro w rest hw heq
    cases w with
    | nil => exact ⟨part :: ps, rfl, heq.symm⟩
    | cons c w =>
      cases part with
      | inl d =>
        obtain ⟨rfl, htail⟩ := List.cons.inj heq
        obtain ⟨b, rfl, hrest⟩ := ih (fun hmem => hw (List.mem_cons_of_mem _ hmem)) htail
        exact ⟨b, rfl, hrest⟩
      | inr v =>
        obtain ⟨body, hbody, -⟩ := embeddingPlaceholder_brackets name.text
        rw [redacted_inr, placeholderFor, hbody] at heq
        exact absurd (List.cons.inj heq).1 fun he => hw (he ▸ List.mem_cons_self)

/-- An opener of a redacted text was kept, or a placeholder was inserted where it stands. -/
theorem opener_of_redacted {name : PatternName} {o : List Char} (ho : IsOpener o) {ps : List Part} :
    ∀ {u rest : List Char},
    redacted (placeholderFor name) ps = u ++ (o ++ rest) →
    (∃ a b, ps = a ++ (kept o ++ b) ∧ u = redacted (placeholderFor name) a ∧ rest = redacted (placeholderFor name) b) ∨
      ∃ a w b, ps = a ++ .inr w :: b ∧ u = redacted (placeholderFor name) a := by
  obtain ⟨o', rfl, hopen, -⟩ := ho.brackets
  induction ps with
  | nil =>
    intro u rest heq
    have := congrArg List.length heq
    simp at this
  | cons part ps ih =>
    intro u rest heq
    have hnext : ∀ {u' : List Char}, redacted (placeholderFor name) ps = u' ++ ('[' :: o' ++ rest) →
        u = redacted (placeholderFor name) [part] ++ u' →
        (∃ a b, part :: ps = a ++ (kept ('[' :: o') ++ b) ∧ u = redacted (placeholderFor name) a ∧
          rest = redacted (placeholderFor name) b) ∨
          ∃ a w b, part :: ps = a ++ .inr w :: b ∧ u = redacted (placeholderFor name) a := by
      intro u' hps hu
      rcases ih hps with ⟨a, b, rfl, rfl, hrest⟩ | ⟨a, w, b, rfl, rfl⟩
      · exact .inl ⟨part :: a, b, rfl, hu.trans (redacted_append (a := [part])).symm, hrest⟩
      · exact .inr ⟨part :: a, w, b, rfl, hu.trans (redacted_append (a := [part])).symm⟩
    cases part with
    | inl c =>
      cases u with
      | nil =>
        obtain ⟨rfl, htail⟩ := List.cons.inj heq
        obtain ⟨b, rfl, hrest⟩ := kept_of_redacted hopen htail
        exact .inl ⟨[], b, rfl, rfl, hrest⟩
      | cons d u =>
        obtain ⟨rfl, htail⟩ := List.cons.inj heq
        exact hnext htail rfl
    | inr w =>
      cases u with
      | nil => exact .inr ⟨[], w, ps, rfl, rfl⟩
      | cons d u =>
        rw [redacted_inr] at heq
        by_cases hlength : (d :: u).length < (placeholderFor name w).length
        · exact absurd rfl (settled_inside_head heq (List.cons_ne_nil d u) hlength)
        · rcases List.append_eq_append_iff.mp heq with ⟨x, hx, hps⟩ | ⟨x, hx, hps⟩
          · exact hnext hps (by rw [hx]; simp)
          · have hnil : x = [] := by
              have := congrArg List.length hx
              rw [List.length_append] at this
              exact List.length_eq_zero_iff.mp (by omega)
            subst hnil
            rw [List.append_nil] at hx
            exact @hnext [] hps.symm (by rw [← hx]; simp)

end EmbeddingPrivacy
