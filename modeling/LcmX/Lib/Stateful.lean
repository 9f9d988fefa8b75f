import LcmX.Lib.Fallible

/-!
# Computations with a state that may fail

A failure keeps the state that it was in. From every state with an invariant a
computation ends in one, its result satisfies a predicate, and so does its failure.
-/
namespace Stateful

abbrev Eff (σ ε α : Type) : Type := ExceptT ε (StateM σ) α

variable {σ ε α β : Type}

/-- The result and the last state. -/
def outcome (m : Eff σ ε α) (s : σ) : Except ε α × σ := m s

/-- What the result of a computation satisfies, or its failure. -/
def Satisfies (P : α → Prop) (E : ε → Prop) : Except ε α → Prop
  | .ok a => P a
  | .error e => E e

def Ensures (I : σ → Prop) (m : Eff σ ε α) (P : α → Prop) (E : ε → Prop) : Prop :=
  ∀ s, I s → I (outcome m s).2 ∧ Satisfies P E (outcome m s).1

theorem outcome_bind (m : Eff σ ε α) (f : α → Eff σ ε β) (s : σ) : outcome (m >>= f) s =
    match outcome m s with
    | (.ok a, s) => outcome (f a) s
    | (.error e, s) => (.error e, s) := by
  change (ExceptT.bindCont f (m s).1) (m s).2 = _
  rw [outcome]
  rcases h : m s with ⟨_ | _, s'⟩ <;> rfl

/-- Whatever fails has its failure seen to in the state where it failed. -/
def onFailure (m : Eff σ ε α) (f : σ → σ) : Eff σ ε α := fun s =>
  match outcome m s with
  | (.ok a, s) => (.ok a, s)
  | (.error e, s) => (.error e, f s)

namespace Ensures

variable {I : σ → Prop} {E : ε → Prop} {P : α → Prop} {Q : β → Prop} {m : Eff σ ε α} {f : α → Eff σ ε β}

theorem pure {a : α} (h : P a) : Ensures I (pure a : Eff σ ε α) P E := fun _ hs => ⟨hs, h⟩

theorem throw {e : ε} (h : E e) : Ensures I (throw e : Eff σ ε α) P E := fun _ hs => ⟨hs, h⟩

theorem bind (hm : Ensures I m P E) (hf : ∀ a, P a → Ensures I (f a) Q E) : Ensures I (m >>= f) Q E := by
  intro s hs
  obtain ⟨hkeep, hsat⟩ := hm s hs
  rw [outcome_bind]
  rcases h : outcome m s with ⟨_ | a, s'⟩
  · rw [h] at hkeep hsat
    exact ⟨hkeep, hsat⟩
  · rw [h] at hkeep hsat
    exact hf a hsat s' hkeep

theorem get : Ensures I (get : Eff σ ε σ) I E := fun _ hs => ⟨hs, hs⟩

theorem modify {g : σ → σ} (h : ∀ s, I s → I (g s)) : Ensures I (modify g : Eff σ ε PUnit) (fun _ => True) E :=
  fun s hs => ⟨h s hs, trivial⟩

theorem ofExcept {x : Except ε α} (h : Satisfies P E x) : Ensures I (MonadExcept.ofExcept x : Eff σ ε α) P E := by
  cases x with
  | ok a => exact pure h
  | error e => exact throw h

theorem onFailure {g : σ → σ} (hm : Ensures I m P E) (h : ∀ s, I s → I (g s)) : Ensures I (onFailure m g) P E := by
  intro s hs
  obtain ⟨hkeep, hsat⟩ := hm s hs
  rw [outcome, Stateful.onFailure]
  rcases hout : outcome m s with ⟨e | a, s'⟩
  · rw [hout] at hkeep hsat
    exact ⟨h s' hkeep, hsat⟩
  · rw [hout] at hkeep hsat
    exact ⟨hkeep, hsat⟩

end Ensures

end Stateful
