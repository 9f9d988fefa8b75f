import Mathlib.Data.List.Infix

/-!
# Backtracking regular expressions

An expression run at a position of a text gives the states in which it can end,
in the order in which a backtracking matcher tries them; the match is the first
of them. Searching and substitution go from left to right and never overlap.
-/
namespace Regex

/-- A position in a text: the characters behind it, the nearest first, and those ahead. A group that was
captured is its number with the offsets where it starts and stops, the latest first. -/
structure State where
  behind : List Char
  ahead : List Char
  groups : List (Nat × Nat × Nat)
deriving DecidableEq, Repr

namespace State

def pos (s : State) : Nat := s.behind.length

def text (s : State) : List Char := s.behind.reverse ++ s.ahead

/-- The state past the first `n` characters ahead. -/
def skip (s : State) (n : Nat) : State := ⟨(s.ahead.take n).reverse ++ s.behind, s.ahead.drop n, s.groups⟩

/-- The text that a group captured. -/
def group (s : State) (n : Nat) : Option (List Char) :=
  (s.groups.find? fun g => g.1 = n).map fun g => (s.text.drop g.2.1).take (g.2.2 - g.2.1)

def next (s : State) (p : Char → Bool) : List State :=
  match s.ahead with
  | [] => []
  | c :: rest => if p c then [⟨c :: s.behind, rest, s.groups⟩] else []

end State

inductive Re where
  | empty
  | char (p : Char → Bool)
  /-- An assertion about what is behind and ahead. -/
  | test (p : List Char → List Char → Bool)
  | seq (a b : Re)
  | or (a b : Re)
  | rep (short : Bool) (least : Nat) (most : Option Nat) (a : Re)
  | group (n : Nat) (a : Re)
  | back (n : Nat)

/-- `a{least,most}`: every round consumes, and `short` tries to stop before it goes on. -/
def loop (step : State → List State) (short : Bool) : Nat → Nat → Option Nat → State → List State
  | 0, least, _, s => if least = 0 then [s] else []
  | fuel + 1, least, most, s =>
    let more :=
      if most = some 0 then []
      else
        ((step s).filter fun t => t.ahead.length < s.ahead.length).flatMap
          (loop step short fuel (least - 1) (most.map (· - 1)))
    let stop := if least = 0 then [s] else []
    if short then stop ++ more else more ++ stop

def run : Re → State → List State
  | .empty, s => [s]
  | .char p, s => s.next p
  | .test p, s => if p s.behind s.ahead then [s] else []
  | .seq a b, s => (run a s).flatMap (run b)
  | .or a b, s => run a s ++ run b s
  | .rep short least most a, s => loop (run a) short s.ahead.length least most s
  | .group n a, s => (run a s).map fun t => { t with groups := (n, s.pos, t.pos) :: t.groups }
  | .back n, s =>
    match s.group n with
    | none => []
    | some w => if w.isPrefixOf s.ahead then [s.skip w.length] else []

/-! ## Notation of the patterns -/

def lit : List Char → Re
  | [] => .empty
  | c :: w => .seq (.char (· = c)) (lit w)

def opt (a : Re) : Re := .rep false 0 (some 1) a

def star (a : Re) : Re := .rep false 0 none a

def plus (a : Re) : Re := .rep false 1 none a

def atLeast (n : Nat) (a : Re) : Re := .rep false n none a

/-! ## Ignoring the case -/

def isAsciiAlnum (c : Char) : Bool := c.isAlpha || c.isDigit

/-- A letter of a pattern that ignores the case; the long s, the dotless and the dotted i and the Kelvin sign
stand for their ASCII letters too. -/
def ignoringCase (letter : Char) (c : Char) : Bool :=
  c.toLower = letter.toLower || (letter.toLower = 's' && c.toNat = 0x17f) ||
    (letter.toLower = 'i' && (c.toNat = 0x130 || c.toNat = 0x131)) || (letter.toLower = 'k' && c.toNat = 0x212a)

/-- `[A-Za-z0-9]` in a pattern that ignores the case. -/
def isAlnumIgnoringCase (c : Char) : Bool :=
  isAsciiAlnum c || c.toNat = 0x17f || c.toNat = 0x130 || c.toNat = 0x131 || c.toNat = 0x212a

def litIgnoringCase : List Char → Re
  | [] => .empty
  | c :: w => .seq (.char (ignoringCase c)) (litIgnoringCase w)

/-! ## Matching, searching and substituting -/

/-- A match: where it starts and stops, its text, and what its groups captured. -/
structure Match where
  start : Nat
  stop : Nat
  text : List Char
  groups : List (Nat × List Char × Nat × Nat)
deriving DecidableEq, Repr

namespace Match

def group (m : Match) (n : Nat) : Option (List Char) := (m.groups.find? fun g => g.1 = n).map fun g => g.2.1

/-- The offsets of a group in the text of the match. -/
def span (m : Match) (n : Nat) : Option (Nat × Nat) :=
  (m.groups.find? fun g => g.1 = n).map fun g => (g.2.2.1 - m.start, g.2.2.2 - m.start)

end Match

/-- The match that leads from one state to another. -/
def found (s t : State) : Match where
  start := s.pos
  stop := t.pos
  text := s.ahead.take (t.pos - s.pos)
  groups := t.groups.map fun g => (g.1, (t.text.drop g.2.1).take (g.2.2 - g.2.1), g.2.1, g.2.2)

def matchAt (a : Re) (behind ahead : List Char) : Option State := (run a ⟨behind, ahead, []⟩).head?

def matchText (a : Re) (behind ahead : List Char) : Option Match :=
  (matchAt a behind ahead).map (found ⟨behind, ahead, []⟩)

/-- The match that goes on to the end of the text. -/
def fullmatch (a : Re) (behind ahead : List Char) : Option Match :=
  ((run a ⟨behind, ahead, []⟩).find? fun t => t.ahead = []).map (found ⟨behind, ahead, []⟩)

def search (a : Re) : List Char → List Char → Option Match
  | behind, [] => matchText a behind []
  | behind, c :: rest => (matchText a behind (c :: rest)).or (search a (c :: behind) rest)

/-- The text cut into the matches, which do not overlap, and the characters between them. The expression is
one that always consumes. -/
def pieces (a : Re) : Nat → List Char → List Char → List (Char ⊕ Match)
  | 0, _, _ => []
  | fuel + 1, behind, ahead =>
    match (matchAt a behind ahead).filter fun t => t.ahead.length < ahead.length with
    | some t => .inr (found ⟨behind, ahead, []⟩ t) :: pieces a fuel t.behind t.ahead
    | none =>
      match ahead with
      | [] => []
      | c :: rest => .inl c :: pieces a fuel (c :: behind) rest

def cut (a : Re) (text : List Char) : List (Char ⊕ Match) := pieces a text.length [] text

def finditer (a : Re) (text : List Char) : List Match := (cut a text).filterMap Sum.getRight?

/-- A piece with what stands in its place when it is no single character. -/
def pieceText {α : Type} (f : α → List Char) : Char ⊕ α → List Char
  | .inl c => [c]
  | .inr m => f m

def sub (a : Re) (f : Match → List Char) (text : List Char) : List Char := (cut a text).flatMap (pieceText f)

/-- A substitution whose replacements run in a state, from left to right. -/
def substitute {α σ : Type} (f : α → σ → List Char × σ) : List (Char ⊕ α) → σ → List Char × σ
  | [], state => ([], state)
  | .inl c :: rest, state => ((c :: (substitute f rest state).1), (substitute f rest state).2)
  | .inr m :: rest, state =>
    let (text, state) := f m state
    (text ++ (substitute f rest state).1, (substitute f rest state).2)

theorem substitute_inr {α σ : Type} (f : α → σ → List Char × σ) (m : α) (rest : List (Char ⊕ α)) (state : σ) :
    substitute f (.inr m :: rest) state =
      ((f m state).1 ++ (substitute f rest (f m state).2).1, (substitute f rest (f m state).2).2) := rfl

/-! ## What a run consumes -/

/-- The second state stands past a text that is ahead of the first. -/
def Reaches (s : State) (w : List Char) (t : State) : Prop := t.behind = w.reverse ++ s.behind ∧ s.ahead = w ++ t.ahead

namespace Reaches

variable {s t u : State} {v w : List Char}

theorem refl (s : State) : Reaches s [] s := ⟨rfl, rfl⟩

theorem trans (h : Reaches s v t) (h' : Reaches t w u) : Reaches s (v ++ w) u := by
  constructor
  · rw [h'.1, h.1, List.reverse_append, List.append_assoc]
  · rw [h.2, h'.2, List.append_assoc]

theorem pos_eq (h : Reaches s w t) : t.pos = s.pos + w.length := by
  rw [State.pos, State.pos, h.1, List.length_append, List.length_reverse, Nat.add_comm]

theorem text_eq (h : Reaches s w t) : t.text = s.text := by
  rw [State.text, State.text, h.1, h.2, List.reverse_append, List.reverse_reverse, List.append_assoc]

/-- The text between two positions is what was consumed on the way. -/
theorem slice_eq (h : Reaches s w t) : (s.text.drop s.pos).take (t.pos - s.pos) = w := by
  have hdrop : s.text.drop s.pos = s.ahead := by
    rw [State.text, State.pos]
    simp
  rw [hdrop, h.pos_eq, h.2]
  simp

theorem found_text (h : Reaches s w t) : (found s t).text = w := by
  rw [found, h.pos_eq, h.2]
  simp

end Reaches

variable {step : State → List State} {short : Bool} {a : Re} {w : List Char}

/-- A loop stops at once, or goes on after one round when it may. -/
theorem mem_loop_round {fuel least : Nat} {most : Option Nat} {s t : State}
    (h : t ∈ loop step short (fuel + 1) least most s) :
    t ∈ (if least = 0 then [s] else []) ∨
      most ≠ some 0 ∧ ∃ u ∈ step s, t ∈ loop step short fuel (least - 1) (most.map (· - 1)) u := by
  have hparts : t ∈ (if least = 0 then [s] else []) ∨ t ∈ (if most = some 0 then [] else
      ((step s).filter fun t => t.ahead.length < s.ahead.length).flatMap
        (loop step short fuel (least - 1) (most.map (· - 1)))) := by
    cases short with
    | false =>
      rw [loop, if_neg (by decide), List.mem_append] at h
      exact h.symm
    | true =>
      rw [loop, if_pos rfl, List.mem_append] at h
      exact h
  refine hparts.imp_right fun hmore => ?_
  split at hmore
  · cases hmore
  · next hmost =>
    simp only [List.mem_flatMap, List.mem_filter] at hmore
    obtain ⟨u, ⟨hu, -⟩, ht⟩ := hmore
    exact ⟨hmost, u, hu, ht⟩

theorem mem_loop {fuel least : Nat} {most : Option Nat} {s t : State}
    (h : t ∈ loop step short (fuel + 1) least most s) :
    t ∈ (if least = 0 then [s] else []) ∨ ∃ u ∈ step s, t ∈ loop step short fuel (least - 1) (most.map (· - 1)) u :=
  (mem_loop_round h).imp_right And.right

/-- The rounds of a loop, each with what a round is known to consume. -/
theorem loop_reaches {Q : List Char → Prop}
    (hstep : ∀ {s t}, t ∈ step s → ∃ w, Reaches s w t ∧ Q w) (short : Bool) (fuel : Nat) :
    ∀ {least : Nat} {most : Option Nat} {s t : State}, t ∈ loop step short fuel least most s →
      ∃ rounds : List (List Char), Reaches s rounds.flatten t ∧ (∀ w ∈ rounds, Q w) ∧ least ≤ rounds.length := by
  induction fuel with
  | zero =>
    intro least most s t h
    simp only [loop] at h
    split at h
    · next hleast =>
      rw [List.mem_singleton.mp h]
      exact ⟨[], .refl s, by simp, by simp [hleast]⟩
    · cases h
  | succ fuel ih =>
    intro least most s t h
    rcases mem_loop h with hstop | ⟨u, hu, ht⟩
    · split at hstop
      · next hleast =>
        rw [List.mem_singleton.mp hstop]
        exact ⟨[], .refl s, by simp, by simp [hleast]⟩
      · cases hstop
    · obtain ⟨w, hw, hQ⟩ := hstep hu
      obtain ⟨rounds, hrounds, hall, hlen⟩ := ih ht
      refine ⟨w :: rounds, hw.trans hrounds, ?_, ?_⟩
      · intro v hv
        cases hv with
        | head => exact hQ
        | tail _ hv => exact hall v hv
      · rw [List.length_cons]
        omega

theorem mem_next {s t : State} {p : Char → Bool} (h : t ∈ s.next p) : ∃ c, Reaches s [c] t ∧
    p c = true ∧ t.groups = s.groups := by
  rw [State.next] at h
  split at h
  · cases h
  · next c rest hahead =>
    split at h
    · next hp =>
      rw [List.mem_singleton.mp h]
      exact ⟨c, ⟨rfl, hahead⟩, hp, rfl⟩
    · cases h

/-- What an expression runs to it reaches over a word. -/
theorem run_reaches (a : Re) : ∀ {s t : State}, t ∈ run a s → ∃ w, Reaches s w t := by
  induction a with
  | empty =>
    intro s t h
    rw [List.mem_singleton.mp h]
    exact ⟨[], .refl s⟩
  | char p =>
    intro s t h
    obtain ⟨c, hc, -⟩ := mem_next h
    exact ⟨[c], hc⟩
  | test p =>
    intro s t h
    rw [run] at h
    split at h
    · rw [List.mem_singleton.mp h]
      exact ⟨[], .refl s⟩
    · cases h
  | seq a b iha ihb =>
    intro s t h
    simp only [run, List.mem_flatMap] at h
    obtain ⟨u, hu, ht⟩ := h
    obtain ⟨v, hv⟩ := iha hu
    obtain ⟨w, hw⟩ := ihb ht
    exact ⟨v ++ w, hv.trans hw⟩
  | or a b iha ihb =>
    intro s t h
    rw [run, List.mem_append] at h
    exact h.elim iha ihb
  | rep short least most a ih =>
    intro s t h
    have hstep : ∀ {s t : State}, t ∈ run a s → ∃ w, Reaches s w t ∧ True := by
      intro s t ht
      obtain ⟨w, hw⟩ := ih ht
      exact ⟨w, hw, trivial⟩
    obtain ⟨rounds, hrounds, -⟩ := loop_reaches hstep short _ h
    exact ⟨_, hrounds⟩
  | group n a ih =>
    intro s t h
    simp only [run, List.mem_map] at h
    obtain ⟨u, hu, rfl⟩ := h
    obtain ⟨w, hw⟩ := ih hu
    exact ⟨w, hw⟩
  | back n =>
    intro s t h
    rw [run] at h
    split at h
    · cases h
    · next w _ =>
      split at h
      · next hprefix =>
        obtain ⟨rest, hrest⟩ := List.isPrefixOf_iff_prefix.mp hprefix
        rw [List.mem_singleton.mp h]
        refine ⟨w, ?_⟩
        constructor
        · simp [State.skip, ← hrest]
        · simp [State.skip, ← hrest]
      · cases h

/-- A repeated class consumes characters of the class, at least as many as it has to. -/
theorem run_rep_char {least : Nat} {most : Option Nat} {p : Char → Bool} {s t : State}
    (h : t ∈ run (.rep short least most (.char p)) s) : ∃ w, Reaches s w t ∧ (∀ c ∈ w, p c = true) ∧
      least ≤ w.length := by
  have hstep : ∀ {s t : State}, t ∈ run (.char p) s → ∃ w, Reaches s w t ∧ ∃ c, w = [c] ∧ p c = true := by
    intro s t ht
    obtain ⟨c, hc, hp, -⟩ := mem_next ht
    exact ⟨[c], hc, c, rfl, hp⟩
  obtain ⟨rounds, hrounds, hall, hlen⟩ := loop_reaches hstep short _ h
  refine ⟨rounds.flatten, hrounds, ?_, ?_⟩
  · intro c hc
    obtain ⟨w, hw, hcw⟩ := List.mem_flatten.mp hc
    obtain ⟨d, rfl, hd⟩ := hall w hw
    rwa [List.mem_singleton.mp hcw]
  · have hsum : rounds.flatten.length = rounds.length := by
      rw [List.length_flatten]
      have hones : rounds.map List.length = rounds.map fun _ => 1 := by
        apply List.map_congr_left
        intro w hw
        obtain ⟨d, rfl, -⟩ := hall w hw
        rfl
      rw [hones]
      simp
    omega

/-! ## What an expression without groups consumes -/

/-- The texts that an expression can consume; it captures nothing. -/
def Yields (a : Re) (Q : List Char → Prop) : Prop :=
  ∀ ⦃s t⦄, t ∈ run a s → ∃ w, Reaches s w t ∧ t.groups = s.groups ∧ Q w

namespace Yields

variable {a b : Re} {P Q : List Char → Prop}

theorem imp (h : Yields a P) (hPQ : ∀ w, P w → Q w) : Yields a Q := by
  intro s t ht
  obtain ⟨w, hw, hg, hP⟩ := h ht
  exact ⟨w, hw, hg, hPQ w hP⟩

theorem seq (ha : Yields a P) (hb : Yields b Q) : Yields (.seq a b) fun w => ∃ u v, w = u ++ v ∧ P u ∧ Q v := by
  intro s t ht
  obtain ⟨u, hu, ht⟩ := List.mem_flatMap.mp ht
  obtain ⟨v, hv, hgv, hP⟩ := ha hu
  obtain ⟨w, hw, hgw, hQ⟩ := hb ht
  exact ⟨v ++ w, hv.trans hw, hgw.trans hgv, v, w, rfl, hP, hQ⟩

theorem or (ha : Yields a P) (hb : Yields b P) : Yields (.or a b) P :=
  fun _ _ ht => (List.mem_append.mp ht).elim (fun h => ha h) fun h => hb h

theorem test (p : List Char → List Char → Bool) : Yields (.test p) fun w => w = [] := by
  intro s t ht
  rw [run] at ht
  split at ht
  · rw [List.mem_singleton.mp ht]
    exact ⟨[], .refl s, rfl, rfl⟩
  · cases ht

theorem char (p : Char → Bool) : Yields (.char p) fun w => ∃ c, w = [c] ∧ p c = true := by
  intro s t ht
  obtain ⟨c, hc, hp, hg⟩ := mem_next ht
  exact ⟨[c], hc, hg, c, rfl, hp⟩

theorem litIgnoringCase (w : List Char) :
    Yields (litIgnoringCase w) fun v => List.Forall₂ (fun c d => ignoringCase c d = true) w v := by
  induction w with
  | nil =>
    intro s t ht
    rw [List.mem_singleton.mp ht]
    exact ⟨[], .refl s, rfl, .nil⟩
  | cons c w ih =>
    refine (seq (char _) ih).imp ?_
    rintro _ ⟨_, v, rfl, ⟨d, rfl, hd⟩, hv⟩
    exact .cons hd hv

/-- A loop over a class. -/
theorem rep (short : Bool) (least : Nat) (most : Option Nat) (p : Char → Bool) :
    Yields (.rep short least most (.char p))
    fun w => (∀ c ∈ w, p c = true) ∧ least ≤ w.length ∧ ∀ n, most = some n → w.length ≤ n := by
  have hloop : ∀ fuel {least most s t}, t ∈ loop (run (.char p)) short fuel least most s →
      ∃ w, Reaches s w t ∧ t.groups = s.groups ∧ (∀ c ∈ w, p c = true) ∧ least ≤ w.length ∧ ∀ n,
        most = some n → w.length ≤ n := by
    intro fuel
    induction fuel with
    | zero =>
      intro least most s t ht
      simp only [loop] at ht
      split at ht
      · next hleast =>
        rw [List.mem_singleton.mp ht]
        exact ⟨[], .refl s, rfl, by simp, by simp [hleast], by simp⟩
      · cases ht
    | succ fuel ih =>
      intro least most s t ht
      rcases mem_loop_round ht with hstop | ⟨hmost, u, hu, ht⟩
      · split at hstop
        · next hleast =>
          rw [List.mem_singleton.mp hstop]
          exact ⟨[], .refl s, rfl, by simp, by simp [hleast], by simp⟩
        · cases hstop
      · obtain ⟨c, hc, hp, hg⟩ := mem_next hu
        obtain ⟨w, hw, hgw, hall, hleast, hless⟩ := ih ht
        refine ⟨[c] ++ w, hc.trans hw, hgw.trans hg, ?_, ?_, ?_⟩
        · intro d hd
          rcases List.mem_cons.mp hd with rfl | hd
          · exact hp
          · exact hall d hd
        · rw [List.length_append, List.length_singleton]
          omega
        · rintro n rfl
          have hn : n ≠ 0 := fun h => hmost (by rw [h])
          have := hless (n - 1) rfl
          rw [List.length_append, List.length_singleton]
          omega
  exact fun s t ht => hloop _ ht

/-- A character that may be there. -/
theorem opt (p : Char → Bool) : Yields (opt (.char p)) fun w => w = [] ∨ ∃ c, w = [c] ∧ p c = true := by
  refine (rep false 0 (some 1) p).imp ?_
  rintro w ⟨hall, -, hless⟩
  have := hless 1 rfl
  cases w with
  | nil => exact .inl rfl
  | cons c w =>
    obtain rfl : w = [] := by
      rw [List.length_cons] at this
      exact List.length_eq_zero_iff.mp (by omega)
    exact .inr ⟨c, rfl, hall c List.mem_cons_self⟩

end Yields

/-- A literal consumes its text. -/
theorem Yields.lit (w : List Char) : Yields (lit w) fun v => v = w := by
  induction w with
  | nil =>
    intro s t ht
    rw [List.mem_singleton.mp ht]
    exact ⟨[], .refl s, rfl, rfl⟩
  | cons c w ih =>
    refine (Yields.seq (Yields.char _) ih).imp ?_
    rintro _ ⟨_, v, rfl, ⟨d, rfl, hd⟩, rfl⟩
    rw [of_decide_eq_true hd]
    rfl

/-! ## Texts that an expression can take -/

/-- An expression can consume a text wherever it stands. -/
def Accepts (a : Re) (w : List Char) : Prop :=
  ∀ behind rest groups, (⟨w.reverse ++ behind, rest, groups⟩ : State) ∈ run a ⟨behind, w ++ rest, groups⟩

namespace Accepts

variable {a b : Re} {u v : List Char}

theorem seq (ha : Accepts a u) (hb : Accepts b v) : Accepts (.seq a b) (u ++ v) := by
  intro behind rest groups
  refine List.mem_flatMap.mpr ⟨⟨u.reverse ++ behind, v ++ rest, groups⟩, ?_, ?_⟩
  · rw [List.append_assoc]
    exact ha behind (v ++ rest) groups
  · rw [List.reverse_append, List.append_assoc]
    exact hb (u.reverse ++ behind) rest groups

theorem char {p : Char → Bool} {c : Char} (h : p c = true) : Accepts (.char p) [c] := by
  intro behind rest groups
  simp [run, State.next, h]

theorem lit (w : List Char) : Accepts (lit w) w := by
  induction w with
  | nil => exact fun behind rest groups => List.mem_singleton_self _
  | cons c w ih => exact (char (p := (· = c)) (decide_eq_true rfl)).seq ih

theorem rep (short : Bool) {least : Nat} {most : Option Nat} {p : Char → Bool} {w : List Char}
    (hall : ∀ c ∈ w, p c = true)
    (hleast : least ≤ w.length) (hmost : ∀ n, most = some n → w.length ≤ n) :
      Accepts (.rep short least most (.char p)) w := by
  intro behind rest groups
  have hloop : ∀ (fuel : Nat) (w : List Char) (behind : List Char) (least : Nat) (most : Option Nat),
    (∀ c ∈ w, p c = true) → least ≤ w.length →
      (∀ n, most = some n → w.length ≤ n) → w.length ≤ fuel →
      (⟨w.reverse ++ behind, rest, groups⟩ : State) ∈ loop (run (.char p)) short fuel least most
        ⟨behind, w ++ rest, groups⟩ := by
    intro fuel
    induction fuel with
    | zero =>
      intro w behind least most _ hleast _ hfuel
      obtain rfl := List.length_eq_zero_iff.mp (Nat.le_zero.mp hfuel)
      obtain rfl : least = 0 := Nat.le_zero.mp hleast
      exact List.mem_singleton_self _
    | succ fuel ih =>
      intro w behind least most hall hleast hmost hfuel
      -- the loop stops at the end of the text, and goes on before it
      cases w with
      | nil =>
        obtain rfl : least = 0 := Nat.le_zero.mp hleast
        cases short <;> simp [loop]
      | cons c w =>
        have hgo : (⟨(c :: w).reverse ++ behind, rest, groups⟩ : State) ∈ if most = some 0 then [] else
            ((run (.char p) ⟨behind, c :: w ++ rest, groups⟩).filter fun t => t.ahead.length <
              (c :: w ++ rest).length).flatMap
              (loop (run (.char p)) short fuel (least - 1) (most.map (· - 1))) := by
          rw [if_neg fun h => absurd (hmost 0 h) (by simp)]
          refine List.mem_flatMap.mpr ⟨⟨c :: behind, w ++ rest, groups⟩, ?_, ?_⟩
          · simp [run, State.next, hall c List.mem_cons_self]
          · have hrest := ih w (c :: behind) (least - 1) (most.map (· - 1))
              (fun d hd => hall d (List.mem_cons_of_mem _ hd))
              (by rw [List.length_cons] at hleast; omega) (fun n hn => ?_) (by rw [List.length_cons] at hfuel; omega)
            · simpa using hrest
            · obtain ⟨m, hm, rfl⟩ := Option.map_eq_some_iff.mp hn
              have hless := hmost m hm
              rw [List.length_cons] at hless
              omega
        rw [loop]
        cases short
        · exact List.mem_append_left _ hgo
        · exact List.mem_append_right _ hgo
  exact hloop _ w behind least most hall hleast hmost (by simp)

theorem fullmatch (h : Accepts a v) : (fullmatch a [] v).isSome := by
  have hmem := h [] [] []
  rw [List.append_nil] at hmem
  rw [Regex.fullmatch, Option.isSome_map, List.find?_isSome]
  exact ⟨_, hmem, decide_eq_true rfl⟩

end Accepts

theorem mem_run_group {n : Nat} {s t : State} (h : t ∈ run (.group n a) s) :
    ∃ u ∈ run a s, t = { u with groups := (n, s.pos, u.pos) :: u.groups } := by
  obtain ⟨u, hu, rfl⟩ := List.mem_map.mp h
  exact ⟨u, hu, rfl⟩

/-! ## The pieces of a text -/

theorem pieces_succ (a : Re) (fuel : Nat) (behind ahead : List Char) : pieces a (fuel + 1) behind ahead =
    match (matchAt a behind ahead).filter fun t => t.ahead.length < ahead.length with
    | some t => .inr (found ⟨behind, ahead, []⟩ t) :: pieces a fuel t.behind t.ahead
    | none =>
      match ahead with
      | [] => []
      | c :: rest => .inl c :: pieces a fuel (c :: behind) rest := by
  cases ahead <;> rfl

theorem pieces_text (a : Re) (fuel : Nat) : ∀ {behind ahead : List Char}, ahead.length ≤ fuel →
    (pieces a fuel behind ahead).flatMap (pieceText Match.text) = ahead := by
  induction fuel with
  | zero =>
    intro behind ahead h
    rw [List.length_eq_zero_iff.mp (by omega : ahead.length = 0)]
    rfl
  | succ fuel ih =>
    intro behind ahead h
    rw [pieces_succ]
    split
    · next t ht =>
      obtain ⟨hhead, hless⟩ := Option.filter_eq_some_iff.mp ht
      obtain ⟨w, hw⟩ := run_reaches a (List.mem_of_mem_head? hhead)
      simp only [decide_eq_true_eq] at hless
      rw [List.flatMap_cons, pieceText, hw.found_text, ih (by omega)]
      exact hw.2.symm
    · cases ahead with
      | nil => rfl
      | cons c rest =>
        rw [List.flatMap_cons, pieceText, ih (by simpa using h)]
        rfl

theorem cut_text (a : Re) (text : List Char) : (cut a text).flatMap (pieceText Match.text) = text :=
  pieces_text a _ (Nat.le_refl _)

/-- Every match of the pieces is one of the expression at some position. -/
theorem mem_pieces {m : Match} {fuel : Nat} : ∀ {behind ahead : List Char}, .inr m ∈ pieces a fuel behind ahead →
    ∃ s t, t ∈ run a s ∧ s.groups = [] ∧ m = found s t := by
  induction fuel with
  | zero =>
    intro behind ahead h
    cases h
  | succ fuel ih =>
    intro behind ahead h
    rw [pieces_succ] at h
    split at h
    · next t ht =>
      cases h with
      | head =>
        exact ⟨⟨behind, ahead, []⟩, t, List.mem_of_mem_head? (Option.filter_eq_some_iff.mp ht).1, rfl, rfl⟩
      | tail _ h => exact ih h
    · cases ahead with
      | nil => cases h
      | cons c rest =>
        cases h with
        | tail _ h => exact ih h

/-! ## The first way to match -/

theorem run_lit_append (w : List Char) : ∀ (behind rest : List Char) (groups : List (Nat × Nat × Nat)),
    run (lit w) ⟨behind, w ++ rest, groups⟩ = [⟨w.reverse ++ behind, rest, groups⟩] := by
  induction w with
  | nil => exact fun _ _ _ => rfl
  | cons c w ih =>
    intro behind rest groups
    simp [lit, run, State.next, ih]

theorem isPrefix_of_run_lit : ∀ {s t : State}, t ∈ run (lit w) s → w <+: s.ahead := by
  induction w with
  | nil => exact fun _ => List.nil_prefix
  | cons c w ih =>
    intro s t h
    simp only [lit, run, List.mem_flatMap] at h
    obtain ⟨u, hu, ht⟩ := h
    obtain ⟨d, hd, hp, -⟩ := mem_next hu
    rw [hd.2, of_decide_eq_true hp]
    exact List.cons_prefix_cons.mpr ⟨rfl, ih ht⟩

theorem run_lit_eq_nil {s : State} (h : ¬ w <+: s.ahead) : run (lit w) s = [] :=
  List.eq_nil_iff_forall_not_mem.mpr fun _ ht => h (isPrefix_of_run_lit ht)

section

variable (p : Char → Bool) (behind : List Char) (groups : List (Nat × Nat × Nat))

theorem run_rep_char_nil (short : Bool) (least : Nat) : run (.rep short least none (.char p)) ⟨behind, [], groups⟩ =
    if least = 0 then [⟨behind, [], groups⟩] else [] := by
  simp [run, loop]

theorem run_lazy_cons (c : Char) (rest : List Char) : run (.rep true 0 none (.char p)) ⟨behind, c :: rest, groups⟩ =
    ⟨behind, c :: rest, groups⟩ :: if p c then
      run (.rep true 0 none (.char p)) ⟨c :: behind, rest, groups⟩ else [] := by
  cases hp : p c <;> simp [run, loop, State.next, hp]

theorem run_greedy_cons (least : Nat) (c : Char) (rest : List Char) :
    run (.rep false least none (.char p)) ⟨behind, c :: rest, groups⟩ =
      (if p c then run (.rep false (least - 1) none (.char p)) ⟨c :: behind, rest, groups⟩ else []) ++
        if least = 0 then [⟨behind, c :: rest, groups⟩] else [] := by
  cases hp : p c <;> simp [run, loop, State.next, hp]

end

/-- A greedy class goes on to the first character outside of it. -/
theorem run_greedy_first {p : Char → Bool} {rest : List Char} (hstop : ∀ c ∈ rest.head?, p c = false)
    (groups) (w : List Char) :
    ∀ (behind : List Char) {least : Nat}, (∀ c ∈ w, p c = true) → least ≤ w.length →
      ∃ more, run (.rep false least none (.char p)) ⟨behind, w ++ rest, groups⟩ =
      ⟨w.reverse ++ behind, rest, groups⟩ :: more := by
  induction w with
  | nil =>
    intro behind least _ hlen
    cases rest with
    | nil => exact ⟨[], by rw [List.append_nil, run_rep_char_nil, if_pos (by simpa using hlen)]; rfl⟩
    | cons c rest =>
      have hzero : least = 0 := by simpa using hlen
      refine ⟨[], ?_⟩
      rw [List.nil_append, run_greedy_cons, hstop c rfl, if_neg (by decide), if_pos hzero]
      rfl
  | cons c w ih =>
    intro behind least hall hlen
    have hless : least - 1 ≤ w.length := by
      rw [List.length_cons] at hlen
      omega
    obtain ⟨more, hmore⟩ := ih (c :: behind) (fun d hd => hall d (List.mem_cons_of_mem _ hd)) hless
    refine ⟨more ++ if least = 0 then [⟨behind, c :: (w ++ rest), groups⟩] else [], ?_⟩
    rw [List.cons_append, run_greedy_cons, hall c List.mem_cons_self, if_pos rfl, hmore]
    simp

/-- A lazy class stops at the first place where the rest of the expression matches. -/
theorem run_lazy_first {p : Char → Bool} {k : State → List State} {rest : List Char} {groups}
    {t : State} (w : List Char) :
    ∀ {behind : List Char}, (∀ c ∈ w, p c = true) →
      (∀ u v, w = u ++ v → v ≠ [] → k ⟨u.reverse ++ behind, v ++ rest, groups⟩ = []) →
      (k ⟨w.reverse ++ behind, rest, groups⟩).head? = some t →
      ((run (.rep true 0 none (.char p)) ⟨behind, w ++ rest, groups⟩).flatMap k).head? = some t := by
  induction w with
  | nil =>
    intro behind _ _ hk
    cases rest with
    | nil => simpa [run_rep_char_nil] using hk
    | cons c rest =>
      rw [List.nil_append, run_lazy_cons, List.flatMap_cons, List.head?_append]
      rw [List.reverse_nil, List.nil_append] at hk
      rw [hk]
      rfl
  | cons c w ih =>
    intro behind hall hbefore hk
    have hhere := hbefore [] (c :: w) rfl (List.cons_ne_nil _ _)
    rw [List.reverse_nil, List.nil_append] at hhere
    rw [List.cons_append, run_lazy_cons, List.flatMap_cons, ← List.cons_append, hhere, List.nil_append,
      hall c List.mem_cons_self, if_pos rfl]
    apply ih
    · exact fun d hd => hall d (List.mem_cons_of_mem _ hd)
    · intro u v hw hv
      simpa using hbefore (c :: u) v (by rw [hw, List.cons_append]) hv
    · simpa using hk

/-- A greedy class gives back what the rest of the expression needs: the longest way to match counts. -/
theorem run_greedy_back {p : Char → Bool} {k : State → List State} {rest : List Char} {groups}
    {t : State} (w : List Char) :
    ∀ {behind : List Char}, (∀ c ∈ w, p c = true) →
      (∀ u v, v ≠ [] → Reaches ⟨w.reverse ++ behind, rest, groups⟩ v u → k u = []) →
      (k ⟨w.reverse ++ behind, rest, groups⟩).head? = some t →
      ((run (star (.char p)) ⟨behind, w ++ rest, groups⟩).flatMap k).head? = some t := by
  induction w with
  | nil =>
    intro behind _ hlonger hk
    rw [List.reverse_nil, List.nil_append] at hk hlonger
    rw [star, List.nil_append]
    cases rest with
    | nil => simpa [run_rep_char_nil] using hk
    | cons c rest =>
      rw [run_greedy_cons, List.flatMap_append]
      have hnone : (if p c then run (.rep false (0 - 1) none (.char p)) ⟨c :: behind, rest, groups⟩
          else []).flatMap k = [] := by
        rw [List.flatMap_eq_nil_iff]
        intro u hu
        split at hu
        · obtain ⟨v, hv⟩ := run_reaches _ hu
          have hstep : Reaches ⟨behind, c :: rest, groups⟩ [c] ⟨c :: behind, rest, groups⟩ := ⟨rfl, rfl⟩
          exact hlonger u ([c] ++ v) (by simp) (hstep.trans hv)
        · cases hu
      rw [hnone]
      simpa using hk
  | cons c w ih =>
    intro behind hall hlonger hk
    rw [star, List.cons_append, run_greedy_cons, hall c List.mem_cons_self, if_pos rfl,
      List.flatMap_append, List.head?_append]
    have hfirst := @ih (c :: behind) (fun d hd => hall d (List.mem_cons_of_mem _ hd)) (by simpa using hlonger)
      (by simpa using hk)
    rw [star] at hfirst
    rw [hfirst]
    rfl

/-- A literal that ignores the case, where it matches. -/
theorem run_litIgnoringCase : ∀ {v : List Char} (behind rest : List Char) (groups : List (Nat × Nat × Nat)),
    List.Forall₂ (fun c d => ignoringCase c d = true) w v →
    run (litIgnoringCase w) ⟨behind, v ++ rest, groups⟩ = [⟨v.reverse ++ behind, rest, groups⟩] := by
  induction w with
  | nil =>
    intro v behind rest groups h
    cases h
    rfl
  | cons c w ih =>
    intro v behind rest groups h
    cases h with
    | cons hc hw =>
      simp only [litIgnoringCase, run, State.next, List.cons_append, hc, if_true, List.flatMap_cons, List.flatMap_nil,
        List.append_nil]
      rw [ih _ _ _ hw]
      simp

theorem litIgnoringCase_reaches : ∀ {s t : State}, t ∈ run (litIgnoringCase w) s →
    ∃ v, Reaches s v t ∧ List.Forall₂ (fun c d => ignoringCase c d = true) w v := by
  induction w with
  | nil =>
    intro s t h
    rw [List.mem_singleton.mp h]
    exact ⟨[], .refl s, .nil⟩
  | cons c w ih =>
    intro s t h
    simp only [litIgnoringCase, run, List.mem_flatMap] at h
    obtain ⟨u, hu, ht⟩ := h
    obtain ⟨d, hd, hp, -⟩ := mem_next hu
    obtain ⟨v, hv, hall⟩ := ih ht
    exact ⟨d :: v, hd.trans hv, .cons hp hall⟩

theorem search_eq_none : ∀ {ahead behind : List Char},
    (∀ u v, ahead = u ++ v → run a ⟨u.reverse ++ behind, v, []⟩ = []) → search a behind ahead = none := by
  intro ahead
  induction ahead with
  | nil =>
    intro behind h
    have hhere := h [] [] rfl
    rw [List.reverse_nil, List.nil_append] at hhere
    rw [search, matchText, matchAt, hhere]
    rfl
  | cons c rest ih =>
    intro behind h
    have hhere := h [] (c :: rest) rfl
    rw [List.reverse_nil, List.nil_append] at hhere
    rw [search, matchText, matchAt, hhere, ih]
    · rfl
    · intro u v huv
      simpa using h (c :: u) v (by rw [huv, List.cons_append])

theorem search_of_matchText {behind ahead : List Char} {m : Match} (h : matchText a behind ahead = some m) :
    search a behind ahead = some m := by
  cases ahead with
  | nil => exact h
  | cons c rest => rw [search, h]; rfl

end Regex
