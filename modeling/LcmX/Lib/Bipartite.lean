import Mathlib.Data.List.Nodup
import Mathlib.Data.List.Perm.Subperm

/-!
# Matchings of a relation

A matching is a list of pairs with both sides distinct. The one bound that
optimality proofs use: the pairs whose left side can only be matched inside a
set of right sides are at most the elements of that set.
-/
namespace Bipartite

variable {A B : Type}

structure IsMatching (rel : A → B → Prop) (m : List (A × B)) : Prop where
  left : (m.map Prod.fst).Nodup
  right : (m.map Prod.snd).Nodup
  related : ∀ p ∈ m, rel p.1 p.2

/-- No matching is larger. -/
def IsMaximum (rel : A → B → Prop) (m : List (A × B)) : Prop :=
  IsMatching rel m ∧ ∀ m', IsMatching rel m' → m'.length ≤ m.length

/-- Some matching covers all of `s`. -/
def Matchable (rel : A → B → Prop) (s : List A) : Prop :=
  ∃ m, IsMatching rel m ∧ ∀ a ∈ s, a ∈ m.map Prod.fst

theorem IsMatching.matchable {rel : A → B → Prop} {m : List (A × B)} (h : IsMatching rel m) {s : List A}
    (hs : ∀ a ∈ s, a ∈ m.map Prod.fst) : Matchable rel s := ⟨m, h, hs⟩

/-- If every partner of a `p` element lies in `inside`, at most `inside.length`
elements of `p` are matched. -/
theorem IsMatching.blocked {rel : A → B → Prop} {m : List (A × B)} (h : IsMatching rel m)
    (p : A → Prop) [DecidablePred p] (inside : List B)
    (hin : ∀ a b, rel a b → p a → b ∈ inside) :
    (m.filter (fun x => p x.1)).length ≤ inside.length := by
  have hsub : (m.filter (fun x => p x.1)).Sublist m := List.filter_sublist
  have hnodup : ((m.filter (fun x => p x.1)).map Prod.snd).Nodup := (hsub.map Prod.snd).nodup h.right
  have hmem : (m.filter (fun x => p x.1)).map Prod.snd ⊆ inside := by
    intro b hb
    obtain ⟨x, hx, rfl⟩ := List.mem_map.mp hb
    obtain ⟨hxm, hxp⟩ := List.mem_filter.mp hx
    exact hin x.1 x.2 (h.related x hxm) (by simpa using hxp)
  have hlen := (List.subperm_of_subset hnodup hmem).length_le
  simpa using hlen

/-- A duplicate-free list of elements a matching covers is no longer than the
pairs it covers them with. -/
theorem covered_le {m : List (A × B)} (p : A → Prop) [DecidablePred p] (s : List A) (hs : s.Nodup)
    (hcov : ∀ a ∈ s, a ∈ m.map Prod.fst ∧ p a) : s.length ≤ (m.filter (fun x => p x.1)).length := by
  have hmem : s ⊆ (m.filter (fun x => p x.1)).map Prod.fst := by
    intro a ha
    obtain ⟨hm, hp⟩ := hcov a ha
    obtain ⟨x, hx, rfl⟩ := List.mem_map.mp hm
    exact List.mem_map.mpr ⟨x, List.mem_filter.mpr ⟨hx, by simpa using hp⟩, rfl⟩
  have hlen := (List.subperm_of_subset hs hmem).length_le
  simpa using hlen

end Bipartite
