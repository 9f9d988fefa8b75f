import LcmX.Lib.ChainHeight

/-!
# Longest increasing subsequences

The lengths of the longest increasing subsequences that end at each element, by
patience sorting. An element is critical when it lies on a longest one and no
other element does at its level; critical elements increase.
-/
namespace LongestIncreasing

variable {α β : Type} [LinearOrder α] [LinearOrder β]

/-- The number of tails below the value: `bisect_left` on a sorted list. -/
def rank (tails : List α) (v : α) : Nat := (tails.takeWhile (· < v)).length

def place (tails : List α) (v : α) : List α :=
  if rank tails v = tails.length then tails ++ [v] else tails.set (rank tails v) v

def lengthsFrom : List α → List α → List Nat
  | _, [] => []
  | tails, v :: values => (rank tails v + 1) :: lengthsFrom (place tails v) values

def lengths (values : List α) : List Nat := lengthsFrom [] values

/-! ## Tails -/

theorem rank_le (tails : List α) (v : α) : rank tails v ≤ tails.length := (List.takeWhile_prefix _).length_le

variable {tails : List α}

theorem lt_of_lt_rank {v t : α} {n : Nat} (hn : n < rank tails v) (ht : tails[n]? = some t) : t < v := by
  induction tails generalizing n with
  | nil => simp at ht
  | cons a tails ih =>
    unfold rank at hn
    by_cases ha : a < v
    · rw [List.takeWhile_cons_of_pos (by simpa using ha), List.length_cons] at hn
      cases n with
      | zero =>
        cases ht
        exact ha
      | succ n => exact ih (Nat.lt_of_succ_lt_succ hn) ht
    · rw [List.takeWhile_cons_of_neg (by simpa using ha)] at hn
      cases hn

theorem le_of_rank {v t : α} (ht : tails[rank tails v]? = some t) : v ≤ t := by
  induction tails with
  | nil => simp at ht
  | cons a tails ih =>
    unfold rank at ht
    by_cases ha : a < v
    · rw [List.takeWhile_cons_of_pos (by simpa using ha), List.length_cons, List.getElem?_cons_succ] at ht
      exact ih ht
    · rw [List.takeWhile_cons_of_neg (by simpa using ha)] at ht
      cases ht
      exact le_of_not_gt ha

theorem getElem?_place {v : α} (n : Nat) :
    (place tails v)[n]? = if n = rank tails v then some v else tails[n]? := by
  have hle := rank_le tails v
  unfold place
  split
  · next heq =>
    by_cases hn : n < tails.length
    · rw [List.getElem?_append_left hn, if_neg (by omega)]
    · rw [List.getElem?_append_right (by omega)]
      by_cases hlast : n = rank tails v
      · rw [if_pos hlast, hlast, heq]
        simp
      · rw [if_neg hlast, List.getElem?_eq_none (by simp; omega), List.getElem?_eq_none (by omega)]
  · next hne =>
    rw [List.getElem?_set]
    by_cases hn : rank tails v = n
    · rw [if_pos hn, if_pos hn.symm, if_pos (by omega)]
    · rw [if_neg hn, if_neg fun h => hn h.symm]

/-- What the tails say of the elements before: `done` pairs each with its length. -/
structure Tails (tails : List α) (done : List (α × Nat)) : Prop where
  increasing : ∀ (m n : Nat) (a b : α), m < n → tails[m]? = some a → tails[n]? = some b → a < b
  reached : ∀ (n : Nat) (t : α), tails[n]? = some t → (t, n + 1) ∈ done
  bounded : ∀ (v : α) (k : Nat), (v, k) ∈ done → ∃ (n : Nat) (t : α), k = n + 1 ∧ tails[n]? = some t ∧ t ≤ v

theorem tails_nil : Tails ([] : List α) [] := ⟨by simp, by simp, by simp⟩

/-- The next element extends the longest of the smaller ones before it. -/
theorem Tails.rank_spec {done : List (α × Nat)} (h : Tails tails done) (v : α) :
    (∀ w k, (w, k) ∈ done → w < v → k < rank tails v + 1) ∧
      (rank tails v ≠ 0 → ∃ w, (w, rank tails v) ∈ done ∧ w < v) := by
  constructor
  · intro w k hin hlt
    obtain ⟨n, t, rfl, ht, hle⟩ := h.bounded w k hin
    by_contra hge
    -- A tail at or above the rank is at least the value.
    have hrank : rank tails v ≤ n := by omega
    have hn : n < tails.length := (List.getElem?_eq_some_iff.mp ht).1
    have hat : v ≤ tails[rank tails v] := le_of_rank (List.getElem?_eq_getElem (hrank.trans_lt hn))
    cases Nat.lt_or_eq_of_le hrank with
    | inl hless =>
      have hsmall := h.increasing _ n _ t hless (List.getElem?_eq_getElem (hrank.trans_lt hn)) ht
      exact absurd (hat.trans_lt hsmall) (not_lt.mpr (hle.trans hlt.le))
    | inr heq =>
      have htail : tails[rank tails v] = t := by
        rw [List.getElem?_eq_some_iff] at ht
        obtain ⟨_, ht⟩ := ht
        rw [← ht]
        congr
      rw [htail] at hat
      exact absurd (hle.trans_lt hlt) (not_lt.mpr hat)
  · intro hpos
    have hn : rank tails v - 1 < tails.length := by
      have hle := rank_le tails v
      omega
    have htail := List.getElem?_eq_getElem hn
    have hin := h.reached _ _ htail
    rw [show rank tails v - 1 + 1 = rank tails v by omega] at hin
    exact ⟨_, hin, lt_of_lt_rank (by omega) htail⟩

/-- Placing a value keeps the tails of the longest sequences. -/
theorem Tails.place {done : List (α × Nat)} (h : Tails tails done) (v : α) :
    Tails (place tails v) (done ++ [(v, rank tails v + 1)]) := by
  have hle := rank_le tails v
  constructor
  · intro m n a b hmn ha hb
    rw [getElem?_place] at ha hb
    split at ha
    · next hm =>
      cases ha
      rw [if_neg (by omega)] at hb
      -- Past the rank the old tails are larger than the one replaced.
      have hn : n < tails.length := (List.getElem?_eq_some_iff.mp hb).1
      have hrank : rank tails v < tails.length := by omega
      have hat : v ≤ tails[rank tails v] := le_of_rank (List.getElem?_eq_getElem hrank)
      exact hat.trans_lt (h.increasing _ n _ b (by omega) (List.getElem?_eq_getElem (by omega)) hb)
    · split at hb
      · next hn =>
        cases hb
        exact lt_of_lt_rank (by omega) ha
      · exact h.increasing m n a b hmn ha hb
  · intro n t ht
    rw [getElem?_place] at ht
    split at ht
    · next hn =>
      cases ht
      rw [hn]
      simp
    · exact List.mem_append_left _ (h.reached n t ht)
  · intro w k hin
    cases List.mem_append.mp hin with
    | inl hold =>
      obtain ⟨n, t, rfl, ht, htw⟩ := h.bounded w k hold
      by_cases hn : n = rank tails v
      · refine ⟨n, v, rfl, by rw [getElem?_place, if_pos hn], ?_⟩
        rw [hn] at ht
        exact (le_of_rank ht).trans htw
      · exact ⟨n, t, rfl, by rw [getElem?_place, if_neg hn]; exact ht, htw⟩
    | inr hnew =>
      rw [List.mem_singleton, Prod.mk.injEq] at hnew
      obtain ⟨rfl, rfl⟩ := hnew
      exact ⟨_, w, rfl, by rw [getElem?_place, if_pos rfl], le_rfl⟩

/-! ## Lengths -/

/-- Each length is one more than the largest among the smaller elements before it. -/
structure Longest (done : List (α × Nat)) (pairs : List (α × Nat)) : Prop where
  above : ∀ pre v k post, pairs = pre ++ (v, k) :: post → ∀ w l, (w, l) ∈ done ++ pre → w < v → l < k
  pred : ∀ pre v k post, pairs = pre ++ (v, k) :: post → k = 1 ∨ ∃ w l, (w, l) ∈ done ++ pre ∧ w < v ∧ l + 1 = k
  pos : ∀ v k, (v, k) ∈ pairs → 0 < k

/-- The lengths are those of the longest sequences that end at each value. -/
theorem longest_lengthsFrom (values : List α) : ∀ tails done, Tails tails done →
    Longest done (values.zip (lengthsFrom tails values)) := by
  induction values with
  | nil => exact fun _ _ _ => ⟨by simp [lengthsFrom], by simp [lengthsFrom], by simp [lengthsFrom]⟩
  | cons v values ih =>
    intro tails done h
    obtain ⟨hbelow, hpred⟩ := h.rank_spec v
    have hrest := ih _ _ (h.place v)
    simp only [lengthsFrom, List.zip_cons_cons]
    constructor
    · intro pre w k post hsplit
      cases pre with
      | nil =>
        cases hsplit
        simpa using hbelow
      | cons q pre =>
        rw [List.cons_append, List.cons.injEq] at hsplit
        obtain ⟨rfl, hsplit⟩ := hsplit
        intro x l hin
        exact hrest.above pre w k post hsplit x l (by simpa using hin)
    · intro pre w k post hsplit
      cases pre with
      | nil =>
        cases hsplit
        by_cases hrank : rank tails v = 0
        · exact .inl (by omega)
        · obtain ⟨x, hin, hlt⟩ := hpred hrank
          exact .inr ⟨x, _, by simpa using hin, hlt, rfl⟩
      | cons q pre =>
        rw [List.cons_append, List.cons.injEq] at hsplit
        obtain ⟨rfl, hsplit⟩ := hsplit
        obtain hone | ⟨x, l, hin, hlt⟩ := hrest.pred pre w k post hsplit
        · exact .inl hone
        · exact .inr ⟨x, l, by simpa using hin, hlt⟩
    · intro w k hin
      cases List.mem_cons.mp hin with
      | inl hfirst =>
        cases hfirst
        omega
      | inr hlater => exact hrest.pos w k hlater

theorem length_lengthsFrom (values : List α) : ∀ tails : List α, (lengthsFrom tails values).length = values.length := by
  induction values with
  | nil => exact fun _ => rfl
  | cons v values ih => exact fun tails => congrArg (· + 1) (ih _)

@[simp] theorem length_lengths (values : List α) : (lengths values).length = values.length :=
  length_lengthsFrom values []

theorem eq_take_cons_drop {γ : Type} {l : List γ} {n : Nat} {x : γ} (h : l[n]? = some x) :
    l = l.take n ++ x :: l.drop (n + 1) := by
  obtain ⟨hn, rfl⟩ := List.getElem?_eq_some_iff.mp h
  rw [List.getElem_cons_drop, List.take_append_drop]

section Index

variable {values : List α} {i j : Nat} {a b : α} {k l : Nat}

theorem longest_lengths (values : List α) : Longest [] (values.zip (lengths values)) :=
  longest_lengthsFrom values [] [] tails_nil

theorem lengths_pos (hk : (lengths values)[i]? = some k) : 0 < k := by
  have hi : i < values.length := by simpa using (List.getElem?_eq_some_iff.mp hk).1
  apply (longest_lengths values).pos values[i] k
  apply List.mem_of_getElem? (i := i)
  rw [List.getElem?_zip_eq_some]
  exact ⟨List.getElem?_eq_getElem hi, hk⟩

theorem lengths_lt (hij : i < j) (ha : values[i]? = some a) (hk : (lengths values)[i]? = some k)
    (hb : values[j]? = some b) (hl : (lengths values)[j]? = some l) (hlt : a < b) : k < l := by
  have hpair : (values.zip (lengths values))[j]? = some (b, l) := List.getElem?_zip_eq_some.mpr ⟨hb, hl⟩
  apply (longest_lengths values).above _ b l _ (eq_take_cons_drop hpair) a k _ hlt
  rw [List.nil_append, List.mem_iff_getElem?]
  exact ⟨i, by rw [List.getElem?_take_of_lt hij]; exact List.getElem?_zip_eq_some.mpr ⟨ha, hk⟩⟩

theorem lengths_pred (hb : values[j]? = some b) (hl : (lengths values)[j]? = some l) :
    l = 1 ∨ ∃ (i : Nat) (a : α) (k : Nat), i < j ∧ values[i]? = some a ∧
    (lengths values)[i]? = some k ∧ a < b ∧ k + 1 = l := by
  have hpair : (values.zip (lengths values))[j]? = some (b, l) := List.getElem?_zip_eq_some.mpr ⟨hb, hl⟩
  obtain hone | ⟨a, k, hin, hlt, hk⟩ := (longest_lengths values).pred _ b l _ (eq_take_cons_drop hpair)
  · exact .inl hone
  · right
    rw [List.nil_append, List.mem_iff_getElem?] at hin
    obtain ⟨i, hi⟩ := hin
    rw [List.getElem?_take] at hi
    split at hi
    · next hij =>
      obtain ⟨ha, hk'⟩ := List.getElem?_zip_eq_some.mp hi
      exact ⟨i, a, k, hij, ha, hk', hlt, hk⟩
    · cases hi

end Index

/-! ## Critical elements -/

/-- Elements with the lengths of the longest increasing sequences that end and that begin at them. -/
structure Levels (q : List (α × Nat × Nat)) : Prop where
  strict : ∀ (i j : Nat) (x y : α × Nat × Nat), i < j → q[i]? = some x → q[j]? = some y → x.1 < y.1 →
    x.2.1 < y.2.1 ∧ y.2.2 < x.2.2
  pred : ∀ (j : Nat) (y : α × Nat × Nat), q[j]? = some y → y.2.1 = 1 ∨
    ∃ (i : Nat) (x : α × Nat × Nat), i < j ∧ q[i]? = some x ∧ x.1 < y.1 ∧ x.2.1 + 1 = y.2.1
  succ : ∀ (i : Nat) (x : α × Nat × Nat), q[i]? = some x → x.2.2 = 1 ∨
    ∃ (j : Nat) (y : α × Nat × Nat), i < j ∧ q[j]? = some y ∧ x.1 < y.1 ∧ y.2.2 + 1 = x.2.2

namespace Levels

variable {q : List (α × Nat × Nat)} {longest : Nat}

/-- No sequence through an element is longer than the longest. -/
theorem sum_le (h : Levels q) (hmax : ∀ x ∈ q, x.2.1 ≤ longest) :
    ∀ (n i : Nat) (x : α × Nat × Nat), q[i]? = some x → x.2.2 = n → x.2.1 + n ≤ longest + 1 := by
  intro n
  induction n with
  | zero =>
    intro i x hx _
    have hle := hmax x (List.mem_of_getElem? hx)
    omega
  | succ n ih =>
    intro i x hx hn
    obtain hone | ⟨j, y, hij, hy, hlt, hg⟩ := h.succ i x hx
    · have hle := hmax x (List.mem_of_getElem? hx)
      omega
    · have hsum := ih j y hy (by omega)
      have hstep := (h.strict i j x y hij hx hy hlt).1
      omega

/-- A longest sequence through an element passes every lower level before it. -/
theorem below (h : Levels q) (hmax : ∀ x ∈ q, x.2.1 ≤ longest) (level : Nat) (hpos : 0 < level) :
    ∀ (n j : Nat) (y : α × Nat × Nat), q[j]? = some y → y.2.1 = level + 1 + n → y.2.1 + y.2.2 = longest + 1 →
      ∃ (i : Nat) (x : α × Nat × Nat), i < j ∧ q[i]? = some x ∧ x.1 < y.1 ∧ x.2.1 = level ∧
      x.2.1 + x.2.2 = longest + 1 := by
  intro n
  induction n with
  | zero =>
    intro j y hy hlevel hsum
    obtain hone | ⟨i, x, hij, hx, hlt, hf⟩ := h.pred j y hy
    · omega
    · have hstep := (h.strict i j x y hij hx hy hlt).2
      have hle := h.sum_le hmax x.2.2 i x hx rfl
      exact ⟨i, x, hij, hx, hlt, by omega, by omega⟩
  | succ n ih =>
    intro j y hy hlevel hsum
    obtain hone | ⟨i, x, hij, hx, hlt, hf⟩ := h.pred j y hy
    · omega
    · have hstep := (h.strict i j x y hij hx hy hlt).2
      have hle := h.sum_le hmax x.2.2 i x hx rfl
      obtain ⟨i', x', hi', hx', hlt', hlevel', hsum'⟩ := ih i x hx (by omega) (by omega)
      exact ⟨i', x', by omega, hx', hlt'.trans hlt, hlevel', hsum'⟩

/-- The only element of its level on a longest sequence. -/
structure Critical (q : List (α × Nat × Nat)) (longest i : Nat) (x : α × Nat × Nat) : Prop where
  at_index : q[i]? = some x
  on_longest : x.2.1 + x.2.2 = longest + 1
  unique : ∀ (j : Nat) (y : α × Nat × Nat), q[j]? = some y → y.2.1 = x.2.1 → y.2.1 + y.2.2 = longest + 1 → j = i

theorem critical_lt (h : Levels q) (hmax : ∀ x ∈ q, x.2.1 ≤ longest) (hpos : ∀ x ∈ q, 0 < x.2.1) {i j : Nat}
    {x y : α × Nat × Nat} (hx : Critical q longest i x) (hy : Critical q longest j y) (hij : i < j) : x.1 < y.1 := by
  have hxpos := hpos x (List.mem_of_getElem? hx.at_index)
  have hypos := hpos y (List.mem_of_getElem? hy.at_index)
  obtain hlt | heq | hgt := Nat.lt_trichotomy x.2.1 y.2.1
  · obtain ⟨i', x', -, hx', hless, hlevel, hsum⟩ :=
      h.below hmax x.2.1 hxpos (y.2.1 - x.2.1 - 1) j y hy.at_index (by omega) hy.on_longest
    have hi := hx.unique i' x' hx' hlevel hsum
    subst hi
    have hsame : x' = x := Option.some.inj (hx'.symm.trans hx.at_index)
    rwa [← hsame]
  · have hi := hx.unique j y hy.at_index heq.symm hy.on_longest
    omega
  · obtain ⟨j', y', hj', hy', -, hlevel, hsum⟩ :=
      h.below hmax y.2.1 hypos (x.2.1 - y.2.1 - 1) i x hx.at_index (by omega) hx.on_longest
    have hj := hy.unique j' y' hy' hlevel hsum
    omega

end Levels

/-- The lengths from both ends, the second on the values reversed and turned over. -/
theorem levels_lengths (values : List α) {turn : α → β} (hturn : StrictAnti turn) :
    Levels (values.zip ((lengths values).zip (lengths (values.reverse.map turn)).reverse)) := by
  have hback : ∀ (i : Nat) (k : Nat), i < values.length → (lengths (values.reverse.map turn)).reverse[i]? = some k →
      (lengths (values.reverse.map turn))[values.length - 1 - i]? = some k := by
    intro i k hi hk
    rwa [List.getElem?_reverse (by simpa using hi), length_lengths, List.length_map, List.length_reverse] at hk
  have hturned : ∀ (i : Nat) (a : α), i < values.length → values[i]? = some a →
      (values.reverse.map turn)[values.length - 1 - i]? = some (turn a) := by
    intro i a hi ha
    rw [List.getElem?_map, List.getElem?_reverse (by omega),
      show values.length - 1 - (values.length - 1 - i) = i by omega, ha]
    rfl
  have hget : ∀ (i : Nat) (x : α × Nat × Nat),
      (values.zip ((lengths values).zip (lengths (values.reverse.map turn)).reverse))[i]? = some x ↔
        values[i]? = some x.1 ∧ (lengths values)[i]? = some x.2.1 ∧
          (lengths (values.reverse.map turn)).reverse[i]? = some x.2.2 := by
    intro i x
    rw [List.getElem?_zip_eq_some, List.getElem?_zip_eq_some]
  constructor
  · intro i j x y hij hx hy hlt
    obtain ⟨ha, hk, hg⟩ := (hget i x).mp hx
    obtain ⟨hb, hl, hg'⟩ := (hget j y).mp hy
    have hj : j < values.length := (List.getElem?_eq_some_iff.mp hb).1
    refine ⟨lengths_lt hij ha hk hb hl hlt, ?_⟩
    exact lengths_lt (by omega) (hturned j _ hj hb) (hback j _ hj hg') (hturned i _ (by omega) ha)
      (hback i _ (by omega) hg)
      (hturn hlt)
  · intro j y hy
    obtain ⟨hb, hl, hg⟩ := (hget j y).mp hy
    obtain hone | ⟨i, a, k, hij, ha, hk, hlt, hkl⟩ := lengths_pred hb hl
    · exact .inl hone
    · right
      have hj : j < values.length := (List.getElem?_eq_some_iff.mp hb).1
      have hi : i < (lengths (values.reverse.map turn)).reverse.length := by
        simp
        omega
      exact ⟨i, (a, k, (lengths (values.reverse.map turn)).reverse[i]), hij,
        (hget i _).mpr ⟨ha, hk, List.getElem?_eq_getElem hi⟩, hlt, hkl⟩
  · intro i x hx
    obtain ⟨ha, hk, hg⟩ := (hget i x).mp hx
    have hi : i < values.length := (List.getElem?_eq_some_iff.mp ha).1
    obtain hone | ⟨m, b, l, hm, hb, hl, hlt, hkl⟩ := lengths_pred (hturned i _ hi ha) (hback i _ hi hg)
    · exact .inl hone
    · right
      -- The element before it in the reversed list comes after it here.
      have hmlen : m < values.length := by simpa using (List.getElem?_eq_some_iff.mp hl).1
      rw [List.getElem?_map, List.getElem?_reverse hmlen, Option.map_eq_some_iff] at hb
      obtain ⟨b', hb', rfl⟩ := hb
      have hjlen : values.length - 1 - m < (lengths values).length := by simp; omega
      refine ⟨values.length - 1 - m, (b', (lengths values)[values.length - 1 - m], l), by omega, ?_,
        hturn.lt_iff_gt.mp hlt, hkl⟩
      refine (hget _ _).mpr ⟨hb', List.getElem?_eq_getElem hjlen, ?_⟩
      rw [List.getElem?_reverse (by simp; omega), length_lengths, List.length_map, List.length_reverse,
        show values.length - 1 - (values.length - 1 - m) = m by omega]
      exact hl

/-! ## Longest lengths and their counts -/

theorem le_foldl_max {l : List Nat} {x : Nat} (h : x ∈ l) : ∀ start, x ≤ l.foldl max start := by
  have hstart : ∀ (l : List Nat) (start : Nat), start ≤ l.foldl max start := by
    intro l
    induction l with
    | nil => exact fun start => le_rfl
    | cons a l ih => exact fun start => (le_max_left start a).trans (ih _)
  induction l with
  | nil => cases h
  | cons a l ih =>
    intro start
    cases List.mem_cons.mp h with
    | inl he =>
      subst he
      exact (le_max_right start x).trans (hstart l _)
    | inr hin => exact ih hin _

theorem countP_one_unique {α : Type} {P : α → Bool} {l : List α} (h : l.countP P = 1) :
    ∀ {i j : Nat} {x y : α}, l[i]? = some x → l[j]? = some y → P x = true → P y = true → i = j := by
  induction l with
  | nil =>
    intro i j x y hx
    simp at hx
  | cons a l ih =>
    intro i j x y hx hy hPx hPy
    rw [List.countP_cons] at h
    -- Once the head counts, nothing after it does.
    have hnone : P a = true → ∀ (k : Nat) (z : α), l[k]? = some z → P z = true → False := by
      intro ha k z hz hPz
      rw [if_pos ha] at h
      have hzero : l.countP P = 0 := by omega
      exact absurd hPz (List.countP_eq_zero.mp hzero z (List.mem_of_getElem? hz))
    cases i with
    | zero =>
      cases hx
      cases j with
      | zero => rfl
      | succ j => exact (hnone hPx j y hy hPy).elim
    | succ i =>
      cases j with
      | zero =>
        cases hy
        exact (hnone hPy i x hx hPx).elim
      | succ j =>
        by_cases ha : P a = true
        · exact (hnone ha i x hx hPx).elim
        · rw [if_neg ha, Nat.add_zero] at h
          exact congrArg (· + 1) (ih h hx hy hPx hPy)

theorem countP_eq_one {α : Type} {P : α → Bool} {l : List α} :
    ∀ {i : Nat} {x : α}, l[i]? = some x → P x = true → (∀ (j : Nat) (y : α), l[j]? = some y → P y = true → j = i) →
      l.countP P = 1 := by
  induction l with
  | nil =>
    intro i x hx
    simp at hx
  | cons a l ih =>
    intro i x hx hP honly
    rw [List.countP_cons]
    cases i with
    | zero =>
      cases hx
      have hzero : l.countP P = 0 := by
        rw [List.countP_eq_zero]
        intro y hy hPy
        obtain ⟨j, hj⟩ := List.mem_iff_getElem?.mp hy
        exact absurd (honly (j + 1) y hj hPy) (by omega)
      rw [hzero, if_pos hP]
    | succ i =>
      have ha : ¬ P a = true := fun ha => absurd (honly 0 a rfl ha) (by omega)
      rw [if_neg ha, Nat.add_zero]
      apply ih hx hP
      intro j y hy hPy
      exact Nat.succ.inj (honly (j + 1) y hy hPy)

theorem foldl_max_mem (l : List Nat) : ∀ start, l.foldl max start = start ∨ l.foldl max start ∈ l := by
  induction l with
  | nil => exact fun _ => .inl rfl
  | cons a l ih =>
    intro start
    rw [List.foldl_cons]
    cases ih (max start a) with
    | inl heq =>
      rw [heq]
      by_cases hle : a ≤ start
      · exact .inl (max_eq_left hle)
      · exact .inr (List.mem_cons.mpr (.inl (max_eq_right (by omega))))
    | inr hin => exact .inr (List.mem_cons_of_mem a hin)

/-! ## Heights -/

open ChainHeight

/-- An element before another one and smaller. -/
def before (values : List α) (i j : Nat) : Prop := i < j ∧ ∃ a b, values[i]? = some a ∧ values[j]? = some b ∧ a < b

instance (values : List α) : IsTrans Nat (before values) := by
  constructor
  rintro i j k ⟨hij, a, b, ha, hb, hab⟩ ⟨hjk, b', d, hb', hd, hbd⟩
  rw [hb] at hb'
  cases hb'
  exact ⟨hij.trans hjk, a, d, ha, hd, hab.trans hbd⟩

/-- The length at an index, from either list of lengths. -/
def at? (l : List Nat) (i : Nat) : Nat := l[i]?.getD 0

theorem at?_eq {l : List Nat} {i k : Nat} (h : l[i]? = some k) : at? l i = k := by rw [at?, h, Option.getD_some]

theorem height_lengths (values : List α) : Height (Finset.range values.length) (before values)
    (at? (lengths values)) := by
  have hget : ∀ i < values.length, (lengths values)[i]? = some (at? (lengths values) i) := by
    intro i hi
    rw [← length_lengths values] at hi
    rw [at?, List.getElem?_eq_getElem hi, Option.getD_some]
  constructor
  · intro i hi
    exact lengths_pos (hget i (Finset.mem_range.mp hi))
  · rintro i hi j hj ⟨hij, a, b, ha, hb, hab⟩
    exact lengths_lt hij ha (hget i (Finset.mem_range.mp hi)) hb (hget j (Finset.mem_range.mp hj)) hab
  · intro j hj
    have hb := List.getElem?_eq_getElem (Finset.mem_range.mp hj)
    obtain hone | ⟨i, a, k, hij, ha, hk, hab, hstep⟩ := lengths_pred hb (hget j (Finset.mem_range.mp hj))
    · exact .inl hone
    · refine .inr ⟨i, ?_, ⟨hij, a, _, ha, hb, hab⟩, ?_⟩
      · exact Finset.mem_range.mpr (List.getElem?_eq_some_iff.mp ha).1
      · rw [at?_eq hk, hstep]

/-- The lengths of the turned list are the heights from behind. -/
theorem height_back (values : List α) {turn : α → β} (hturn : StrictAnti turn) :
    Height (Finset.range values.length) (flip (before values)) (at? (lengths (values.reverse.map turn)).reverse) := by
  have hlevels := levels_lengths values hturn
  have hget : ∀ (i : Nat) (a : α), values[i]? = some a →
      (values.zip ((lengths values).zip (lengths (values.reverse.map turn)).reverse))[i]? =
        some (a, at? (lengths values) i, at? (lengths (values.reverse.map turn)).reverse i) := by
    intro i a ha
    have hi := (List.getElem?_eq_some_iff.mp ha).1
    have hf : i < (lengths values).length := by simpa using hi
    have hg : i < (lengths (values.reverse.map turn)).reverse.length := by simpa using hi
    rw [List.getElem?_zip_eq_some, List.getElem?_zip_eq_some, at?, at?, List.getElem?_eq_getElem hf,
      List.getElem?_eq_getElem hg]
    exact ⟨ha, rfl, rfl⟩
  constructor
  · intro i hi
    have hi : i < (lengths (values.reverse.map turn)).reverse.length := by simpa using hi
    rw [at?, List.getElem?_eq_getElem hi, Option.getD_some]
    have hin := List.mem_reverse.mp (List.getElem_mem hi)
    obtain ⟨n, hn⟩ := List.mem_iff_getElem?.mp hin
    exact lengths_pos hn
  · rintro i hi j hj ⟨hji, b, a, hb, ha, hba⟩
    exact (hlevels.strict j i _ _ hji (hget j b hb) (hget i a ha) hba).2
  · intro i hi
    have ha := List.getElem?_eq_getElem (Finset.mem_range.mp hi)
    obtain hone | ⟨j, ⟨b, k, l⟩, hij, hy, hab, hstep⟩ := hlevels.succ i _ (hget i _ ha)
    · exact .inl hone
    · obtain ⟨hb, hkl⟩ := List.getElem?_zip_eq_some.mp hy
      refine .inr ⟨j, ?_, ⟨hij, _, b, ha, hb, hab⟩, ?_⟩
      · exact Finset.mem_range.mpr (List.getElem?_eq_some_iff.mp hb).1
      · rw [at?_eq (List.getElem?_zip_eq_some.mp hkl).2]
        exact hstep

theorem top_lengths (values : List α) :
    Top (Finset.range values.length) (at? (lengths values)) ((lengths values).foldl max 0) := by
  have hmem : ∀ i ∈ Finset.range values.length, at? (lengths values) i ∈ lengths values := by
    intro i hi
    have hi : i < (lengths values).length := by simpa using hi
    rw [at?, List.getElem?_eq_getElem hi, Option.getD_some]
    exact List.getElem_mem hi
  constructor
  · intro i hi
    exact le_foldl_max (hmem i hi) 0
  · rintro ⟨i, hi⟩
    obtain hzero | hin := foldl_max_mem (lengths values) 0
    · have hpos := (height_lengths values).pos i hi
      have hle := le_foldl_max (hmem i hi) 0
      omega
    · obtain ⟨n, hn⟩ := List.mem_iff_getElem?.mp hin
      have hlen : n < values.length := by simpa using (List.getElem?_eq_some_iff.mp hn).1
      exact ⟨n, Finset.mem_range.mpr hlen, at?_eq hn⟩

end LongestIncreasing
