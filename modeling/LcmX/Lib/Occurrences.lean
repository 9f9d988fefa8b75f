import LcmX.Lib.PyText

/-!
# Where a text occurs in another

`text.find`, and how often a needle occurs when a text is cut or joined.
-/
namespace PyText

/-- `text.find(needle)`, `none` for -1. -/
def find (needle : List Char) : List Char → Option Nat
  | [] => if needle = [] then some 0 else none
  | c :: rest => if needle.isPrefixOf (c :: rest) then some 0 else (find needle rest).map (· + 1)

/-- How many positions of a text a needle starts at. -/
def occurrences (needle : List Char) : List Char → Nat
  | [] => 0
  | c :: rest => (if needle.isPrefixOf (c :: rest) then 1 else 0) + occurrences needle rest

variable {needle : List Char}

variable {text a b : List Char} {c : Char}

theorem find_of_prefix (h : needle <+: text) : find needle text = some 0 := by
  cases text with
  | nil => rw [find, if_pos (List.prefix_nil.mp h)]
  | cons c rest => rw [find, if_pos (List.isPrefixOf_iff_prefix.mpr h)]

theorem find_cons_of_not_prefix {rest : List Char} (h : ¬ needle <+: c :: rest) :
    find needle (c :: rest) = (find needle rest).map (· + 1) := by
  rw [find, if_neg (by rwa [List.isPrefixOf_iff_prefix])]

/-- The needle is where it is found. -/
theorem prefix_of_find {n : Nat} (h : find needle text = some n) : needle <+: text.drop n ∧ n ≤ text.length := by
  induction text generalizing n with
  | nil =>
    rw [find] at h
    split at h
    · next hnil =>
      cases h
      exact ⟨hnil ▸ List.nil_prefix, Nat.le_refl _⟩
    · cases h
  | cons c rest ih =>
    rw [find] at h
    split at h
    · next hstarts =>
      cases h
      exact ⟨List.isPrefixOf_iff_prefix.mp hstarts, Nat.zero_le _⟩
    · obtain ⟨m, hm, rfl⟩ := Option.map_eq_some_iff.mp h
      obtain ⟨hstarts, hle⟩ := ih hm
      exact ⟨hstarts, Nat.succ_le_succ hle⟩

/-- A character that a needle does not have ends what it can stand in. -/
theorem prefix_of_append_cons (hc : c ∉ needle) (h : needle <+: a ++ c :: b) : needle <+: a := by
  by_cases hle : needle.length ≤ a.length
  · exact List.prefix_of_prefix_length_le h (List.prefix_append a (c :: b)) hle
  · have hfront : a ++ [c] <+: a ++ c :: b := ⟨b, by simp⟩
    have hinside := List.prefix_of_prefix_length_le hfront h (by simp; omega)
    exact absurd (hinside.subset (by simp)) hc

/-- A needle that does not start in the first part is found in the second. -/
theorem find_append (h : ∀ i < a.length, ¬ needle <+: (a ++ b).drop i) :
    find needle (a ++ b) = (find needle b).map (· + a.length) := by
  induction a with
  | nil => cases hfind : find needle b <;> simp [hfind]
  | cons c a ih =>
    have hrest := ih fun i hi => h (i + 1) (Nat.succ_lt_succ hi)
    have hhere : ¬ needle <+: c :: (a ++ b) := h 0 (Nat.zero_lt_succ _)
    rw [List.cons_append, find_cons_of_not_prefix hhere, hrest, Option.map_map, List.length_cons]
    congr 1

theorem find_eq_none : find needle text = none ↔ ¬ needle <:+: text := by
  induction text with
  | nil => simp [find]
  | cons c rest ih =>
    rw [find, List.infix_cons_iff, not_or, ← ih, ← List.isPrefixOf_iff_prefix]
    split
    · next hstarts => simp [hstarts]
    · next hstarts => simp [hstarts]

/-- A needle whose first character does not come again is found where it stands, behind a text without it. -/
theorem find_append_of_prefix {tail : List Char} (hc : c ∉ tail) (ha : ¬ c :: tail <:+: a)
    (hb : c :: tail <+: b) : find (c :: tail) (a ++ b) = some a.length := by
  have hfirst : ∀ i < a.length, ¬ c :: tail <+: (a ++ b).drop i := by
    intro i hi hstarts
    rw [List.drop_append_of_le_length hi.le] at hstarts
    obtain ⟨d, w, hw⟩ := List.exists_cons_of_ne_nil (List.drop_eq_nil_iff.not.mpr (Nat.not_le.mpr hi))
    obtain ⟨y, rfl⟩ := hb
    rw [hw, List.cons_append, List.cons_prefix_cons] at hstarts
    obtain ⟨rfl, htail⟩ := hstarts
    have hinside : c :: tail <+: a.drop i := by
      rw [hw, List.cons_prefix_cons]
      exact ⟨rfl, prefix_of_append_cons hc htail⟩
    exact ha (hinside.isInfix.trans (List.drop_suffix i a).isInfix)
  rw [find_append hfirst, find_of_prefix hb]
  simp

/-! ## Counting occurrences -/

theorem occurrences_cons (needle : List Char) (c : Char) (rest : List Char) :
    occurrences needle (c :: rest) = (if needle.isPrefixOf (c :: rest) then 1 else 0) + occurrences needle rest := rfl

theorem occurrences_append_le (needle a b : List Char) :
    occurrences needle a + occurrences needle b ≤ occurrences needle (a ++ b) := by
  induction a with
  | nil => simp [occurrences]
  | cons c a ih =>
    rw [List.cons_append, occurrences_cons, occurrences_cons]
    have hhere : (if needle.isPrefixOf (c :: a) then 1 else 0) ≤ if needle.isPrefixOf
        (c :: (a ++ b)) then 1 else 0 := by
      split
      · next hstarts =>
        have hlong : needle <+: c :: (a ++ b) :=
          (List.isPrefixOf_iff_prefix.mp hstarts).trans (List.prefix_append (c :: a) b)
        rw [if_pos (List.isPrefixOf_iff_prefix.mpr hlong)]
      · exact Nat.zero_le _
    omega

theorem occurrences_le (needle : List Char) (h : a <:+: b) : occurrences needle a ≤ occurrences needle b := by
  obtain ⟨front, back, rfl⟩ := h
  have hleft := occurrences_append_le needle (front ++ a) back
  have hright := occurrences_append_le needle front a
  omega

theorem one_le_occurrences (hne : needle ≠ []) (h : needle <:+: text) : 1 ≤ occurrences needle text := by
  have hle := occurrences_le needle h
  have hself : 1 ≤ occurrences needle needle := by
    cases needle with
    | nil => exact absurd rfl hne
    | cons c rest =>
      rw [occurrences_cons, if_pos (List.isPrefixOf_iff_prefix.mpr (List.prefix_refl _))]
      omega
  omega

/-- A character that the needle does not have keeps both sides apart. -/
theorem occurrences_append_cons (hc : c ∉ needle) (hne : needle ≠ []) (a b : List Char) :
    occurrences needle (a ++ c :: b) = occurrences needle a + occurrences needle b := by
  induction a with
  | nil =>
    have hhere : ¬ needle <+: c :: b := by
      cases needle with
      | nil => exact absurd rfl hne
      | cons d rest =>
        rw [List.cons_prefix_cons]
        rintro ⟨rfl, -⟩
        exact hc List.mem_cons_self
    rw [List.nil_append, occurrences_cons, if_neg (by rwa [List.isPrefixOf_iff_prefix])]
    simp [occurrences]
  | cons d a ih =>
    have hhere : needle.isPrefixOf (d :: (a ++ c :: b)) = needle.isPrefixOf (d :: a) := by
      rw [Bool.eq_iff_iff, List.isPrefixOf_iff_prefix, List.isPrefixOf_iff_prefix]
      constructor
      · intro h
        exact prefix_of_append_cons hc (show needle <+: (d :: a) ++ c :: b from h)
      · exact fun h => h.trans (List.prefix_append (d :: a) (c :: b))
    rw [List.cons_append, occurrences_cons, occurrences_cons, ih, hhere, Nat.add_assoc]

theorem occurrences_eq_zero (hne : needle ≠ []) : occurrences needle text = 0 ↔ find needle text = none := by
  induction text with
  | nil => simp [occurrences, find, hne]
  | cons c rest ih =>
    rw [occurrences_cons, find]
    split
    · simp
    · simp [ih]

end PyText
