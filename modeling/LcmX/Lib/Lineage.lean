import Mathlib.Data.List.Basic
import Mathlib.Data.Set.Lattice

/-!
# Elements and what they are made from

Each element lists its sources. Its terminal elements are those without sources
that it reaches, and a cycle below it is one that it reaches.
-/
namespace Lineage

open Relation

variable {α : Type} {sources sources' : α → List α} {a b l : α}

def Edge (sources : α → List α) (a b : α) : Prop := b ∈ sources a

def Reaches (sources : α → List α) : α → α → Prop := ReflTransGen (Edge sources)

/-- The elements without sources that an element is made from. -/
def terminals (sources : α → List α) (a : α) : Set α := {l | Reaches sources a l ∧ sources l = []}

def CycleBelow (sources : α → List α) (a : α) : Prop := ∃ x, Reaches sources a x ∧ TransGen (Edge sources) x x

theorem terminals_of_nil (h : sources a = []) : terminals sources a = {a} := by
  ext l
  rw [Set.mem_singleton_iff]
  constructor
  · rintro ⟨hreach, -⟩
    cases ReflTransGen.cases_head hreach with
    | inl heq => exact heq.symm
    | inr hstep =>
      obtain ⟨b, hb, -⟩ := hstep
      rw [Edge, h] at hb
      cases hb
  · rintro rfl
    exact ⟨.refl, h⟩

theorem mem_terminals (h : sources a ≠ []) : l ∈ terminals sources a ↔ ∃ b ∈ sources a, l ∈ terminals sources b := by
  constructor
  · rintro ⟨hreach, hl⟩
    cases ReflTransGen.cases_head hreach with
    | inl heq => exact absurd (heq ▸ hl) h
    | inr hstep =>
      obtain ⟨b, hb, hreach⟩ := hstep
      exact ⟨b, hb, hreach, hl⟩
  · rintro ⟨b, hb, hreach, hl⟩
    exact ⟨.head hb hreach, hl⟩

/-- A cycle below an element is below one of its sources, also when it passes the element. -/
theorem cycleBelow_iff : CycleBelow sources a ↔ ∃ b ∈ sources a, CycleBelow sources b := by
  constructor
  · rintro ⟨x, hreach, hcycle⟩
    cases ReflTransGen.cases_head hreach with
    | inl heq =>
      subst heq
      obtain ⟨b, hb, hback⟩ := TransGen.head'_iff.mp hcycle
      exact ⟨b, hb, a, hback, hcycle⟩
    | inr hstep =>
      obtain ⟨b, hb, hreach⟩ := hstep
      exact ⟨b, hb, x, hreach, hcycle⟩
  · rintro ⟨b, hb, x, hreach, hcycle⟩
    exact ⟨x, .head hb hreach, hcycle⟩

theorem cycleBelow_of_cycle (h : TransGen (Edge sources) a a) : CycleBelow sources a := ⟨a, .refl, h⟩

theorem edge_congr (h : ∀ a b, b ∈ sources a ↔ b ∈ sources' a) : Edge sources = Edge sources' := by
  funext a b
  exact propext (h a b)

theorem nil_congr (h : ∀ a b, b ∈ sources a ↔ b ∈ sources' a) (a : α) : sources a = [] ↔ sources' a = [] := by
  rw [List.eq_nil_iff_forall_not_mem, List.eq_nil_iff_forall_not_mem]
  exact forall_congr' fun b => not_congr (h a b)

/-- The order in which sources are listed does not matter. -/
theorem terminals_congr (h : ∀ a b, b ∈ sources a ↔ b ∈ sources' a) (a : α) :
    terminals sources a = terminals sources' a := by
  ext l
  unfold terminals Reaches
  rw [edge_congr h]
  exact and_congr Iff.rfl (nil_congr h l)

theorem cycleBelow_congr (h : ∀ a b, b ∈ sources a ↔ b ∈ sources' a) (a : α) :
    CycleBelow sources a ↔ CycleBelow sources' a := by
  unfold CycleBelow Reaches
  rw [edge_congr h]

end Lineage
