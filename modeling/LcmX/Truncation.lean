import Mathlib.Algebra.Order.Floor.Semifield
import Mathlib.Data.Rat.Floor

/-!
# Deterministic truncation

The last level of a summary keeps the first and the last part of a text. Its budget
is in tokens, which are estimated from the number of characters with a divisor for
the script of the text. The estimate is neither additive nor monotone: a shorter
slice may be of a denser script. With an encoder a text is cut at its tokens, and
the tokens are counted; a text that the encoder refuses is treated as without one.
-/
namespace Escalation

abbrev Text := List Char

def charsPerToken : Nat := 4

def isAscii (text : Text) : Bool := text.all fun c => c.toNat ≤ 127

def nonAscii (text : Text) : Nat := text.countP fun c => 127 < c.toNat

/-- The script of a text, by the share of its characters outside ASCII. -/
inductive Density where
  | dense | mixed | latin
deriving DecidableEq, Repr

def density (text : Text) : Density :=
  let ratio : ℚ := (nonAscii text : ℚ) / text.length
  if 1 / 2 ≤ ratio then .dense else if 1 / 5 ≤ ratio then .mixed else .latin

/-- The characters of a token. -/
def Density.divisor : Density → ℚ
  | .dense => 3 / 2
  | .mixed => 5 / 2
  | .latin => charsPerToken

/-- `_fallback_token_estimate` -/
def fallbackTokenEstimate (text : Text) : Nat :=
  if text.length = 0 then 0
  else if isAscii text then text.length / charsPerToken + 1
  else ⌊(text.length : ℚ) / (density text).divisor⌋₊ + 1

/-- The encoder of a tokenizer; it may refuse a text, and its tokens may not be decodable. -/
structure Encoder where
  encode : Text → Option (List Nat)
  decode : List Nat → Option Text

section

variable (encoder : Option Encoder) (text : Text)

/-- `count_tokens` -/
def countTokensWith : Nat :=
  if text = [] then 0
  else
    match encoder.bind fun e => e.encode text with
    | some tokens => tokens.length
    | none => fallbackTokenEstimate text

/-- `text[:n]`, or `text[-n:]`. -/
def charSlice (fromEnd : Bool) (n : Nat) : Text := if fromEnd then text.drop (text.length - n) else text.take n

variable (maxTokens : Nat) (fromEnd : Bool)

/-- The tokens of a text that are kept. -/
def encodedSlice : Option Text :=
  encoder.bind fun e => (e.encode text).bind fun tokens =>
    if tokens.length ≤ maxTokens then some text
    else e.decode (if fromEnd then tokens.drop (tokens.length - maxTokens) else tokens.take maxTokens)

/-- The characters for the next try, when a slice has `estimated` tokens. -/
def nextCharBudget (charBudget estimated : Nat) : Nat := max 1 (⌊(charBudget * maxTokens : ℚ) / estimated⌋₊ - 1)

/-- The correction of a slice, in a number of steps. -/
def correctSliceWith : (steps charBudget : Nat) → Text
  | 0, charBudget => charSlice text fromEnd charBudget
  | steps + 1, charBudget =>
    let candidate := charSlice text fromEnd charBudget
    let estimated := countTokensWith encoder candidate
    if estimated ≤ maxTokens ∨ charBudget ≤ 1 then candidate
    else correctSliceWith steps (nextCharBudget maxTokens charBudget estimated)

def firstCharBudget : Nat := max 1 ⌊(maxTokens : ℚ) * (if isAscii text then Density.latin else density text).divisor⌋₊

/-- `_truncate_text_to_tokens` -/
def truncateTextToTokensWith : Text :=
  if maxTokens = 0 ∨ text = [] then []
  else
    match encodedSlice encoder text maxTokens fromEnd with
    | some kept => kept
    | none =>
      if countTokensWith encoder text ≤ maxTokens then text
      else correctSliceWith encoder text maxTokens fromEnd 8 (firstCharBudget text maxTokens)

def l3TruncationMarker : Text := "\n\n[...deterministic truncation — details available via lcm_expand...]\n\n".toList

/-- A head and a tail with a number of tokens together. -/
def assembleWith (bodyTokens : Nat) : Text :=
  truncateTextToTokensWith encoder text (bodyTokens / 2) false ++ l3TruncationMarker ++
    truncateTextToTokensWith encoder text (bodyTokens - bodyTokens / 2) true

/-- The search for the largest body, between `low` and `high` = `stop - 1`. -/
def searchBodyWith (best : Text) (low stop : Nat) : Text :=
  if _h : low < stop then
    let bodyTokens := (low + (stop - 1)) / 2
    let candidate := assembleWith encoder text bodyTokens
    if countTokensWith encoder candidate ≤ maxTokens then searchBodyWith candidate (bodyTokens + 1) stop
    else searchBodyWith best low bodyTokens
  else best
termination_by stop - low

/-- `_deterministic_truncate` -/
def deterministicTruncateWith (maxTokens : Int) : Text :=
  if countTokensWith encoder text ≤ maxTokens then text
  else
    let markerTokens := countTokensWith encoder l3TruncationMarker
    if maxTokens ≤ markerTokens + 4 then truncateTextToTokensWith encoder text maxTokens.toNat false
    else searchBodyWith encoder text maxTokens.toNat l3TruncationMarker 0 (maxTokens.toNat - markerTokens + 1)

end

/-! ## Without an encoder -/

def countTokens : Text → Nat := countTokensWith none

def correctSlice : Text → Nat → Bool → Nat → Nat → Text := correctSliceWith none

def truncateTextToTokens : Text → Nat → Bool → Text := truncateTextToTokensWith none

def deterministicTruncate (text : Text) (maxTokens : Nat) : Text := deterministicTruncateWith none text maxTokens

/-! ## The estimate -/

theorem divisor_pos (d : Density) : 0 < d.divisor := by
  cases d <;> norm_num [Density.divisor, charsPerToken]

theorem one_lt_divisor (d : Density) : 1 < d.divisor := by
  cases d <;> norm_num [Density.divisor, charsPerToken]

/-- The script that the estimate goes by. -/
def script (text : Text) : Density := if isAscii text then .latin else density text

theorem countTokens_eq {text : Text} (hne : text ≠ []) :
    countTokens text = ⌊(text.length : ℚ) / (script text).divisor⌋₊ + 1 := by
  have hestimate : countTokens text = fallbackTokenEstimate text := by
    rw [countTokens, countTokensWith, if_neg hne]
    rfl
  rw [hestimate, fallbackTokenEstimate, if_neg (List.length_eq_zero_iff.not.mpr hne), script]
  split
  · have hfloor : ⌊(text.length : ℚ) / (charsPerToken : ℚ)⌋₊ = text.length / charsPerToken :=
      Nat.floor_div_eq_div text.length charsPerToken
    rw [Density.divisor, hfloor]
  · rfl

/-- More tokens than a budget are more characters than the budget has. -/
theorem budget_le_of_lt {text : Text} {m : Nat} (h : m < countTokens text) :
    (m : ℚ) * (script text).divisor ≤ text.length := by
  have hne : text ≠ [] := by
    rintro rfl
    cases h
  rw [countTokens_eq hne] at h
  have hfloor : (m : ℚ) ≤ (text.length : ℚ) / (script text).divisor := by
    refine le_trans ?_ (Nat.floor_le (div_nonneg (Nat.cast_nonneg _) (divisor_pos _).le))
    exact_mod_cast Nat.le_of_lt_succ h
  exact (le_div_iff₀ (divisor_pos _)).mp hfloor

theorem countTokens_le {text : Text} {m : Nat} (h : (text.length : ℚ) < m * (script text).divisor) :
    countTokens text ≤ m := by
  by_contra hlt
  have hle := budget_le_of_lt (Nat.not_le.mp hlt)
  linarith

/-- One character is one token. -/
theorem countTokens_singleton {text : Text} (h : text.length ≤ 1) {m : Nat} (hpos : 0 < m) : countTokens text ≤ m := by
  refine countTokens_le ?_
  have hone : (1 : ℚ) ≤ m := by exact_mod_cast hpos
  have hlength : (text.length : ℚ) ≤ 1 := by exact_mod_cast h
  have hdivisor := one_lt_divisor (script text)
  nlinarith

/-! ## The correction -/

def Density.rank : Density → Nat
  | .dense => 0
  | .mixed => 1
  | .latin => 2

theorem divisor_le_of_rank {d d' : Density} (h : d.rank ≤ d'.rank) : d.divisor ≤ d'.divisor := by
  cases d <;> cases d' <;> simp only [Density.rank] at h <;> first | omega | norm_num [Density.divisor, charsPerToken]

section

variable {text : Text} {maxTokens : Nat} {fromEnd : Bool}

theorem length_charSlice {n : Nat} : (charSlice text fromEnd n).length = min n text.length := by
  rw [charSlice]
  split
  · rw [List.length_drop]
    omega
  · rw [List.length_take]

/-- A step either reaches the budget, or the next slice is of a denser script. -/
theorem next_fits (hpos : 0 < maxTokens) {charBudget estimated next : Nat} (hle : charBudget ≤ text.length)
    (hestimated : countTokens (charSlice text fromEnd charBudget) = estimated) (hover : maxTokens < estimated)
    (hnext : nextCharBudget maxTokens charBudget estimated = next) :
    countTokens (charSlice text fromEnd next) ≤ maxTokens ∨
      (script (charSlice text fromEnd next)).rank < (script (charSlice text fromEnd charBudget)).rank := by
  rw [nextCharBudget] at hnext
  by_cases hrank : (script (charSlice text fromEnd next)).rank < (script (charSlice text fromEnd charBudget)).rank
  · exact .inr hrank
  · left
    have hne : charSlice text fromEnd charBudget ≠ [] := by
      intro hnil
      rw [hnil] at hestimated
      subst hestimated
      cases hover
    have hdivisor := divisor_le_of_rank (Nat.not_lt.mp hrank)
    generalize hscript : (script (charSlice text fromEnd charBudget)).divisor = d at hdivisor
    have hd : 0 < d := hscript ▸ divisor_pos _
    have hestimate : (charBudget : ℚ) / d < estimated := by
      have heq := countTokens_eq hne
      rw [hestimated, hscript, length_charSlice, Nat.min_eq_left hle] at heq
      rw [heq]
      exact_mod_cast Nat.lt_floor_add_one ((charBudget : ℚ) / d)
    have hestimated_pos : (0 : ℚ) < estimated := by
      have : 0 < estimated := Nat.lt_of_le_of_lt (Nat.zero_le _) hover
      exact_mod_cast this
    have hfloor : (⌊(charBudget * maxTokens : ℚ) / estimated⌋₊ : ℚ) ≤ maxTokens * d := by
      refine le_trans (Nat.floor_le (div_nonneg (by positivity) hestimated_pos.le)) ?_
      rw [div_le_iff₀ hestimated_pos]
      have hchars : (charBudget : ℚ) ≤ d * estimated := by
        rw [div_lt_iff₀ hd] at hestimate
        linarith
      have hm : (0 : ℚ) ≤ maxTokens := Nat.cast_nonneg _
      nlinarith
    by_cases hsmall : ⌊(charBudget * maxTokens : ℚ) / estimated⌋₊ ≤ 2
    · have hone : next = 1 := by omega
      refine countTokens_singleton ?_ hpos
      rw [length_charSlice, hone]
      exact Nat.min_le_left _ _
    · have hless : (next : ℚ) + 1 = ⌊(charBudget * maxTokens : ℚ) / estimated⌋₊ := by
        have heq : next + 1 = ⌊(charBudget * maxTokens : ℚ) / estimated⌋₊ := by omega
        exact_mod_cast heq
      refine countTokens_le ?_
      have hlength : ((charSlice text fromEnd next).length : ℚ) ≤ next := by
        rw [length_charSlice]
        exact_mod_cast Nat.min_le_left _ _
      have hm : (0 : ℚ) ≤ maxTokens := Nat.cast_nonneg _
      nlinarith

theorem nextCharBudget_le {charBudget estimated : Nat} (hpos : 0 < charBudget) (hover : maxTokens ≤ estimated) :
    nextCharBudget maxTokens charBudget estimated ≤ charBudget := by
  have hfloor : ⌊(charBudget * maxTokens : ℚ) / estimated⌋₊ ≤ charBudget := by
    apply Nat.floor_le_of_le
    have hover' : (maxTokens : ℚ) ≤ estimated := by exact_mod_cast hover
    refine div_le_of_le_mul₀ (Nat.cast_nonneg _) (Nat.cast_nonneg _) ?_
    exact mul_le_mul_of_nonneg_left hover' (Nat.cast_nonneg _)
  rw [nextCharBudget]
  omega

variable (text maxTokens fromEnd) in
/-- The character budget after some corrections. -/
def charBudgetAfter : (steps charBudget : Nat) → Nat
  | 0, charBudget => charBudget
  | steps + 1, charBudget => charBudgetAfter steps
        (nextCharBudget maxTokens charBudget (countTokens (charSlice text fromEnd charBudget)))

variable (fromEnd) in
/-- The script gets denser at most twice. -/
theorem correction_reaches (hpos : 0 < maxTokens) (n : Nat) : ∀ charBudget, 0 < charBudget → charBudget ≤ text.length →
    (script (charSlice text fromEnd charBudget)).rank ≤ n →
      ∃ steps, steps ≤ n + 1 ∧ countTokens
      (charSlice text fromEnd (charBudgetAfter text maxTokens fromEnd steps charBudget)) ≤ maxTokens := by
  induction n with
  | zero =>
    intro charBudget hchars hle hrank
    by_cases hover : maxTokens < countTokens (charSlice text fromEnd charBudget)
    · obtain hfits | hdenser := next_fits hpos hle rfl hover rfl
      · exact ⟨1, Nat.le_refl _, hfits⟩
      · omega
    · exact ⟨0, Nat.zero_le _, Nat.not_lt.mp hover⟩
  | succ n ih =>
    intro charBudget hchars hle hrank
    by_cases hover : maxTokens < countTokens (charSlice text fromEnd charBudget)
    · obtain hfits | hdenser := next_fits hpos hle rfl hover rfl
      · exact ⟨1, by omega, hfits⟩
      · obtain ⟨steps, hsteps, hfits⟩ :=
          ih (nextCharBudget maxTokens charBudget (countTokens (charSlice text fromEnd charBudget)))
          (by rw [nextCharBudget]; omega) ((nextCharBudget_le hchars hover.le).trans hle) (by omega)
        exact ⟨steps + 1, by omega, hfits⟩
    · exact ⟨0, Nat.zero_le _, Nat.not_lt.mp hover⟩

theorem correctSlice_le (hpos : 0 < maxTokens) (fuel : Nat) : ∀ {steps charBudget}, steps < fuel →
    countTokens (charSlice text fromEnd (charBudgetAfter text maxTokens fromEnd steps charBudget)) ≤ maxTokens →
      countTokens (correctSlice text maxTokens fromEnd fuel charBudget) ≤ maxTokens := by
  induction fuel with
  | zero => exact fun hlt => absurd hlt (Nat.not_lt_zero _)
  | succ fuel ih =>
    intro steps charBudget hlt hfits
    unfold correctSlice correctSliceWith
    dsimp only
    split
    · next hstop =>
      obtain hle | hone := hstop
      · exact hle
      · refine countTokens_singleton ?_ hpos
        rw [length_charSlice]
        exact (Nat.min_le_left _ _).trans hone
    · next hgo =>
      rw [not_or] at hgo
      cases steps with
      | zero => exact absurd hfits hgo.1
      | succ steps => exact ih (Nat.lt_of_succ_lt_succ hlt) hfits

theorem firstCharBudget_le (hover : maxTokens < countTokens text) : firstCharBudget text maxTokens ≤ text.length := by
  have hne : text ≠ [] := by
    rintro rfl
    cases hover
  have hchars : ⌊(maxTokens : ℚ) * (if isAscii text then Density.latin else density text).divisor⌋₊ ≤ text.length :=
    Nat.floor_le_of_le (budget_le_of_lt hover)
  have hpos := List.length_pos_iff.mpr hne
  rw [firstCharBudget]
  omega

/-- The corrections of a text over the budget reach a slice within it. -/
theorem corrections_suffice (fromEnd : Bool) (hpos : 0 < maxTokens)
    (hover : maxTokens < countTokens text) : ∃ steps < 8,
    countTokens (charSlice text fromEnd
    (charBudgetAfter text maxTokens fromEnd steps (firstCharBudget text maxTokens))) ≤ maxTokens := by
  have hrank : ∀ d : Density, d.rank ≤ 2 := fun d => by cases d <;> simp [Density.rank]
  obtain ⟨steps, hsteps, hfits⟩ := correction_reaches fromEnd hpos 2 (firstCharBudget text maxTokens)
    (by rw [firstCharBudget]; omega) (firstCharBudget_le hover) (hrank _)
  exact ⟨steps, by omega, hfits⟩

end

theorem truncateTextToTokens_le (text : Text) (maxTokens : Nat) (fromEnd : Bool) :
    countTokens (truncateTextToTokens text maxTokens fromEnd) ≤ maxTokens := by
  rw [truncateTextToTokens, truncateTextToTokensWith]
  split
  · exact Nat.zero_le _
  · next hsome =>
    change countTokens (if countTokens text ≤ maxTokens then text else
      correctSlice text maxTokens fromEnd 8 (firstCharBudget text maxTokens)) ≤ maxTokens
    split
    · next hfits => exact hfits
    · next hover =>
      have hpos : 0 < maxTokens := Nat.pos_of_ne_zero fun h => hsome (.inl h)
      obtain ⟨steps, hsteps, hfits⟩ := corrections_suffice fromEnd hpos (Nat.not_le.mp hover)
      exact correctSlice_le hpos 8 hsteps hfits

/-! ## The head and the tail -/

theorem searchBody_le (text : Text) (maxTokens : Nat) (best : Text) (low stop : Nat)
    (hbest : countTokens best ≤ maxTokens) :
    countTokens (searchBodyWith none text maxTokens best low stop) ≤ maxTokens := by
  fun_induction searchBodyWith none text maxTokens best low stop with
  | case1 best low stop _ bodyTokens candidate hfits ih => exact ih hfits
  | case2 best low stop _ bodyTokens candidate hover ih => exact ih hbest
  | case3 best low stop _ => exact hbest

/-- A truncated text is within its budget, and so is one of the eight slices of each part. -/
theorem deterministicTruncate_le (text : Text) (maxTokens : Nat) :
    countTokens (deterministicTruncate text maxTokens) ≤ maxTokens ∧
      ∀ fromEnd, 0 < maxTokens → maxTokens < countTokens text → ∃ steps < 8,
        countTokens (charSlice text fromEnd
        (charBudgetAfter text maxTokens fromEnd steps (firstCharBudget text maxTokens))) ≤ maxTokens := by
  refine ⟨?_, fun fromEnd hpos hover => corrections_suffice fromEnd hpos hover⟩
  rw [deterministicTruncate, deterministicTruncateWith]
  dsimp only
  split
  · next hfits => exact Nat.cast_le.mp hfits
  · split
    · exact truncateTextToTokens_le text maxTokens false
    · next hroom =>
      refine searchBody_le text maxTokens _ _ _ ?_
      change ¬ ((maxTokens : Int) ≤ countTokens l3TruncationMarker + 4) at hroom
      omega

end Escalation
