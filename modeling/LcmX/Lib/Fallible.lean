import Mathlib.Data.List.Basic

/-!
# Computations that may fail

The inversion rule of a sequence, and the invariant rule of a loop that stops at
the first failure.
-/
namespace Fallible

variable {ε α β γ : Type}

variable {x : Except ε α} {f : α → Except ε β} {l : List α}

theorem bind_ok {b : β} :
    (x >>= f) = .ok b ↔ ∃ a, x = .ok a ∧ f a = .ok b := by
  cases x with
  | error e => simp [bind, Except.bind]
  | ok a => simp [bind, Except.bind]

/-- A sequence goes on with the result of its first part. -/
theorem bind_of_ok {a : α} (h : x = .ok a) : (x >>= f) = f a := by
  rw [h]
  rfl

theorem exists_ok (h : x.isOk = true) : ∃ a, x = .ok a := by
  cases x with
  | error e => cases h
  | ok a => exact ⟨a, rfl⟩

theorem map_of_ok (f : α → β) {a : α} {b : β} (h : x = .ok a) (hmap : x.toOption.map f = some b) :
    f a = b := by
  rw [h] at hmap
  exact Option.some.inj hmap

/-- What every pass of a loop keeps holds when the loop has finished. -/
theorem foldlM_invariant {f : β → α → Except ε β} {P : β → Prop}
    (hstep : ∀ a ∈ l, ∀ b b', P b → f b a = .ok b' → P b') :
    ∀ {b b' : β}, P b → l.foldlM f b = .ok b' → P b' := by
  induction l with
  | nil =>
    intro b b' hb h
    cases h
    exact hb
  | cons a l ih =>
    intro b b' hb h
    rw [List.foldlM_cons, bind_ok] at h
    obtain ⟨mid, hmid, hrest⟩ := h
    exact ih (fun x hx => hstep x (List.mem_cons_of_mem _ hx)) (hstep a List.mem_cons_self b mid hb hmid) hrest

/-- Every pass of a loop that has finished has succeeded. -/
theorem foldlM_passes {f : β → α → Except ε β} : ∀ {b b' : β}, l.foldlM f b = .ok b' →
    ∀ a ∈ l, ∃ c c', f c a = .ok c' := by
  induction l with
  | nil =>
    intro b b' _ a ha
    cases ha
  | cons a l ih =>
    intro b b' h x hx
    rw [List.foldlM_cons, bind_ok] at h
    obtain ⟨mid, hmid, hrest⟩ := h
    rw [List.mem_cons] at hx
    obtain rfl | hx := hx
    · exact ⟨b, mid, hmid⟩
    · exact ih hrest x hx

/-- A loop finishes when each pass succeeds under an invariant that it keeps. -/
theorem foldlM_total {f : β → α → Except ε β} {P : β → Prop}
    (hstep : ∀ a ∈ l, ∀ b, P b → ∃ b', f b a = .ok b' ∧ P b') :
    ∀ {b : β}, P b → ∃ b', l.foldlM f b = .ok b' ∧ P b' := by
  induction l with
  | nil => exact fun {b} hb => ⟨b, rfl, hb⟩
  | cons a l ih =>
    intro b hb
    obtain ⟨mid, hmid, hPmid⟩ := hstep a List.mem_cons_self b hb
    obtain ⟨b', hb', hP'⟩ := ih (fun x hx => hstep x (List.mem_cons_of_mem _ hx)) hPmid
    exact ⟨b', by rw [List.foldlM_cons, bind_ok]; exact ⟨mid, hmid, hb'⟩, hP'⟩

/-- The results of a loop that collects, one for each element. -/
theorem mapM_ok : ∀ {rs : List β}, l.mapM f = .ok rs →
    List.Forall₂ (fun a r => f a = .ok r) l rs := by
  induction l with
  | nil =>
    intro rs h
    cases h
    exact .nil
  | cons a l ih =>
    intro rs h
    rw [List.mapM_cons, bind_ok] at h
    obtain ⟨r, hr, h⟩ := h
    rw [bind_ok] at h
    obtain ⟨rest, hrest, h⟩ := h
    cases h
    exact .cons hr (ih hrest)

theorem mapM_mem {rs : List β} (h : l.mapM f = .ok rs) {r : β} (hr : r ∈ rs) :
    ∃ a ∈ l, f a = .ok r := by
  have hall := mapM_ok h
  clear h
  induction hall with
  | nil => cases hr
  | cons ha _ ih =>
    cases List.mem_cons.mp hr with
    | inl he => exact ⟨_, List.mem_cons_self, he ▸ ha⟩
    | inr hin =>
      obtain ⟨a, hmem, hf⟩ := ih hin
      exact ⟨a, List.mem_cons_of_mem _ hmem, hf⟩

theorem mapM_total : (∀ a ∈ l, ∃ b, f a = .ok b) → ∃ bs, l.mapM f = .ok bs := by
  induction l with
  | nil => exact fun _ => ⟨[], rfl⟩
  | cons a l ih =>
    intro h
    obtain ⟨b, hb⟩ := h a List.mem_cons_self
    obtain ⟨bs, hbs⟩ := ih (fun x hx => h x (List.mem_cons_of_mem _ hx))
    refine ⟨b :: bs, ?_⟩
    rw [List.mapM_cons, hb, hbs]
    rfl

theorem mapM_of_ok {g : α → β} : (∀ a ∈ l, f a = .ok (g a)) → l.mapM f = .ok (l.map g) := by
  induction l with
  | nil => exact fun _ => rfl
  | cons a l ih =>
    intro h
    rw [List.mapM_cons, h a List.mem_cons_self, ih fun x hx => h x (List.mem_cons_of_mem _ hx)]
    rfl

/-! ## How a computation fails -/

/-- Every failure satisfies the predicate. -/
def Fails (P : ε → Prop) (x : Except ε α) : Prop := ∀ e, x = .error e → P e

variable {P : ε → Prop}

theorem fails_ok (a : α) : Fails P (.ok a) := fun _ h => by cases h

theorem fails_error {e : ε} (h : P e) : Fails P (.error e : Except ε α) := fun _ he => Except.error.inj he ▸ h

theorem Fails.bind (hx : Fails P x) (hf : ∀ a, x = .ok a → Fails P (f a)) :
    Fails P (x >>= f) := by
  cases x with
  | error e => exact fails_error (hx e rfl)
  | ok a => exact hf a rfl

theorem Fails.map (hx : Fails P x) (f : α → β) : Fails P (x.map f) := by
  cases x with
  | error e => exact fails_error (hx e rfl)
  | ok a => exact fails_ok _

theorem fails_mapM (h : ∀ a ∈ l, Fails P (f a)) : Fails P (l.mapM f) := by
  induction l with
  | nil => exact fails_ok _
  | cons a l ih =>
    rw [List.mapM_cons]
    refine (h a List.mem_cons_self).bind fun b _ => ?_
    exact (ih fun x hx => h x (List.mem_cons_of_mem _ hx)).bind fun bs _ => fails_ok _

/-- A loop fails as its passes do, from states that keep an invariant. -/
theorem fails_foldlM {f : β → α → Except ε β} {I : β → Prop}
    (hstep : ∀ a ∈ l, ∀ b, I b → Fails P (f b a) ∧ ∀ b', f b a = .ok b' → I b') : ∀ {b : β}, I b →
      Fails P (l.foldlM f b) := by
  induction l with
  | nil => exact fun _ => fails_ok _
  | cons a l ih =>
    intro b hb
    rw [List.foldlM_cons]
    obtain ⟨hfails, hkeeps⟩ := hstep a List.mem_cons_self b hb
    exact hfails.bind fun mid hmid => ih (fun x hx => hstep x (List.mem_cons_of_mem _ hx)) (hkeeps mid hmid)

end Fallible
