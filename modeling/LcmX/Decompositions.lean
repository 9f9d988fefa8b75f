import Mathlib.Data.List.Dedup
import Mathlib.Data.List.Infix

/-!
# Splits of a composite row

A row may be several whole texts with a blank line between them. The walk over the splits is
depth first with its own stack, and gives up on a row that needs too many visits or parts.
A Python set of texts is a list without repetitions.
-/
namespace Decomposition

abbrev Text := List Char

def maxDecompositions : Nat := 3
def decomposeBudget : Nat := 2048
def decomposeMaxParts : Nat := 64

def blankLine : Text := ['\n', '\n']

/-- The parts of a split, and what remains behind them. -/
abbrev Split := List Text × Text

/-- One call of the recursive walk: where it stands, the parts so far, and the texts left to try. -/
structure Frame where
  pos : Nat
  parts : List Text
  pending : List Text

structure Walk where
  out : List Split
  stack : List Frame
  visited : Nat

section

variable (content : Text) (texts : List Text) (isPartial : Bool)

/-- `by_head.get(content[pos:pos + 16], []) + short`. -/
def candidates (pos : Nat) : List Text :=
  (texts.filter fun text => 16 ≤ text.length ∧ text.take 16 = (content.drop pos).take 16) ++
    texts.filter fun text => 0 < text.length ∧ text.length < 16

/-- `content.startswith(text, pos)`. -/
def startsAt (text : Text) (pos : Nat) : Bool := text.isPrefixOf (content.drop pos)

/-- `enter`; `none` once the budget is spent. -/
def enter (pos : Nat) (parts : List Text) (w : Walk) : Option Walk :=
  if maxDecompositions ≤ w.out.length then some w
  else if decomposeBudget < w.visited + 1 ∨ decomposeMaxParts ≤ w.stack.length then none
  else some
    { out := if isPartial ∧ parts ≠ [] ∧ pos < content.length then w.out ++ [(parts, content.drop pos)] else w.out
      stack := ⟨pos, parts, candidates content texts pos⟩ :: w.stack
      visited := w.visited + 1 }

/-- A pass of the `while stack` loop that takes the next text of the top frame. -/
def tryText (pos : Nat) (parts : List Text) (text : Text) (w : Walk) : Option Walk :=
  let stop := pos + text.length
  if ¬ startsAt content text pos then some w
  else if stop = content.length ∧ 1 ≤ parts.length then some { w with out := w.out ++ [(parts ++ [text], [])] }
  else if startsAt content blankLine stop ∧ stop + 2 < content.length then
    enter content texts isPartial (stop + 2) (parts ++ [text]) w
  else some w

/-- The `while stack` loop; the outer `none` is a loop that has not ended, the inner one a spent budget. -/
def loop : Nat → Walk → Option (Option (List Split))
  | 0, _ => none
  | fuel + 1, w =>
    match w.stack with
    | [] => some (some w.out)
    | ⟨_, _, []⟩ :: stack => loop fuel { w with stack := stack }
    | ⟨pos, parts, text :: pending⟩ :: stack =>
      match tryText content texts isPartial pos parts text { w with stack := ⟨pos, parts, pending⟩ :: stack } with
      | none => some none
      | some w => loop fuel w

/-- The passes that the visits allow. -/
def passes : Nat := (decomposeBudget + 1) * (2 * texts.length + 2)

/-- `_decompositions`. -/
def decompositions : Option (Option (List Split)) :=
  match enter content texts isPartial 0 [] ⟨[], [], 0⟩ with
  | none => some none
  | some w => loop content texts isPartial (passes texts) w

end

end Decomposition
