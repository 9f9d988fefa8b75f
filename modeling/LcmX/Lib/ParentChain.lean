import Mathlib.Data.List.Perm.Subperm

/-!
# Chains of parent pointers

Each element has at most one parent. Without a cycle, and inside a finite set
that is closed under taking parents, the root is at most as many hops away as
the set has elements.
-/
namespace ParentChain

variable {α : Type}

def Acyclic (r : α → α → Prop) : Prop := ∀ a, ¬ Relation.TransGen r a a

theorem Acyclic.mono {r r' : α → α → Prop} (h : Acyclic r) (hsub : ∀ a b, r' a b → r a b) : Acyclic r' :=
  fun a ha => h a (Relation.TransGen.mono hsub _ _ ha)

/-- One edge to an element without a parent closes no cycle. -/
theorem Acyclic.insert {r r' : α → α → Prop} (h : Acyclic r) (source target : α)
    (hsub : ∀ a b, r' a b → r a b ∨ (a = source ∧ b = target)) (hroot : ∀ b, ¬ r' target b) : Acyclic r' := by
  have hpath : ∀ a b, Relation.TransGen r' a b → Relation.TransGen r a b ∨ b = target := by
    intro a b hab
    induction hab with
    | single hab => exact (hsub _ _ hab).imp Relation.TransGen.single And.right
    | tail _ hbc ih =>
      rcases ih with hab | rfl
      · exact (hsub _ _ hbc).imp (fun hr => hab.tail hr) And.right
      · exact absurd hbc (hroot _)
  intro a ha
  rcases hpath a a ha with hr | rfl
  · exact h a hr
  · obtain ⟨b, hb, -⟩ := Relation.TransGen.head'_iff.mp ha
    exact hroot b hb

/-- The root, if it is found within a number of steps. -/
def root (parent : α → Option α) : Nat → α → Option α
  | 0, _ => none
  | n + 1, a =>
    match parent a with
    | none => some a
    | some b => root parent n b

/-- Without a cycle the walk to the root ends. -/
theorem root_isSome {parent : α → Option α} {nodes : List α} (hacyclic : Acyclic (fun a b => parent a = some b))
    (hclosed : ∀ a ∈ nodes, ∀ b, parent a = some b → b ∈ nodes) (n : Nat) : ∀ (seen : List α) (a : α), seen.Nodup →
      (∀ x ∈ seen, x ∈ nodes ∧ Relation.TransGen (fun a b => parent a = some b) x a) → a ∈ nodes →
      nodes.length ≤ seen.length + n → (root parent n a).isSome := by
  induction n with
  | zero =>
    intro seen a hnodup hseen ha hlen
    -- the elements seen and the last one are too many
    have hfresh : a ∉ seen := fun hin => hacyclic a (hseen a hin).2
    have hsub : a :: seen ⊆ nodes := by
      intro x hx
      cases List.mem_cons.mp hx with
      | inl he => exact he ▸ ha
      | inr hin => exact (hseen x hin).1
    have hle := (List.Nodup.subperm (List.nodup_cons.mpr ⟨hfresh, hnodup⟩) hsub).length_le
    rw [List.length_cons] at hle
    omega
  | succ n ih =>
    intro seen a hnodup hseen ha hlen
    rw [root]
    cases hp : parent a with
    | none => rfl
    | some b =>
      have hfresh : a ∉ seen := fun hin => hacyclic a (hseen a hin).2
      apply ih (a :: seen) b (List.nodup_cons.mpr ⟨hfresh, hnodup⟩)
      · intro x hx
        cases List.mem_cons.mp hx with
        | inl he => exact ⟨he ▸ ha, he ▸ Relation.TransGen.single hp⟩
        | inr hin => exact ⟨(hseen x hin).1, (hseen x hin).2.tail hp⟩
      · exact hclosed a ha b hp
      · rw [List.length_cons]
        omega

theorem parent_root {parent : α → Option α} (n : Nat) : ∀ {a b : α}, root parent n a = some b → parent b = none := by
  induction n with
  | zero =>
    intro a b h
    cases h
  | succ n ih =>
    intro a b h
    rw [root] at h
    cases hp : parent a with
    | none =>
      rw [hp] at h
      cases h
      exact hp
    | some x =>
      rw [hp] at h
      exact ih h

theorem root_mem {parent : α → Option α} {nodes : List α} (hclosed : ∀ a ∈ nodes, ∀ b, parent a = some b → b ∈ nodes)
    (n : Nat) : ∀ {a b : α}, a ∈ nodes → root parent n a = some b → b ∈ nodes := by
  induction n with
  | zero =>
    intro a b _ h
    cases h
  | succ n ih =>
    intro a b ha h
    rw [root] at h
    cases hp : parent a with
    | none =>
      rw [hp] at h
      cases h
      exact ha
    | some x =>
      rw [hp] at h
      exact ih (hclosed a ha x hp) h

end ParentChain
