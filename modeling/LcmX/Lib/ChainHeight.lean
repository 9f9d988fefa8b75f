import Mathlib.Data.Finset.Max
import Mathlib.Order.Interval.Finset.Nat

/-!
# Heights and longest chains

A height gives each element the length of the longest chain that ends at it. With
the height of the turned relation it says which elements every longest chain has:
those on a longest chain whose height no other element of a longest chain has.
-/
namespace ChainHeight

variable {ι : Type} {U S : Finset ι} {r : ι → ι → Prop} {f g : ι → Nat} {i j : ι}

structure Height (U : Finset ι) (r : ι → ι → Prop) (f : ι → Nat) : Prop where
  pos : ∀ i ∈ U, 0 < f i
  strict : ∀ i ∈ U, ∀ j ∈ U, r i j → f i < f j
  pred : ∀ j ∈ U, f j = 1 ∨ ∃ i ∈ U, r i j ∧ f i + 1 = f j

structure Chain (U : Finset ι) (r : ι → ι → Prop) (S : Finset ι) : Prop where
  inside : S ⊆ U
  chain : IsChain r (S : Set ι)

/-- A chain that no chain has more elements than. -/
structure Longest (U : Finset ι) (r : ι → ι → Prop) (S : Finset ι) : Prop extends Chain U r S where
  largest : ∀ T, Chain U r T → T.card ≤ S.card

/-- A chain that ends at the element. -/
structure EndsAt (U : Finset ι) (r : ι → ι → Prop) (S : Finset ι) (j : ι) : Prop extends Chain U r S where
  last : j ∈ S
  before : ∀ i ∈ S, i = j ∨ r i j

theorem Chain.flip (h : Chain U r S) : Chain U (flip r) S := ⟨h.inside, h.chain.symm⟩

theorem Chain.filter (h : Chain U r S) (P : ι → Prop) [DecidablePred P] : Chain U r (S.filter P) :=
  ⟨(Finset.filter_subset P S).trans h.inside, h.chain.mono (Finset.filter_subset P S)⟩

/-! ## Chains that end at an element -/

theorem Height.injOn (hf : Height U r f) (h : Chain U r S) : Set.InjOn f S := by
  intro i hi j hj heq
  by_contra hne
  cases h.chain hi hj hne with
  | inl hij => exact absurd (hf.strict i (h.inside hi) j (h.inside hj) hij) (by omega)
  | inr hji => exact absurd (hf.strict j (h.inside hj) i (h.inside hi) hji) (by omega)

theorem Height.card_le (hf : Height U r f) (h : EndsAt U r S j) : S.card ≤ f j := by
  have hcard : (Finset.Icc 1 (f j)).card = f j := by simp
  rw [← hcard]
  apply Finset.card_le_card_of_injOn f
  · intro i hi
    have hpos := hf.pos i (h.inside hi)
    rw [Finset.mem_coe, Finset.mem_Icc]
    cases h.before i hi with
    | inl heq =>
      subst heq
      omega
    | inr hij =>
      have hlt := hf.strict i (h.inside hi) j (h.inside h.last) hij
      omega
  · exact hf.injOn h.toChain

/-- A chain as long as its height ends at every element. -/
theorem Height.exists_chain [IsTrans ι r] (hf : Height U r f) :
    ∀ (n : Nat) (j : ι), j ∈ U → f j = n → ∃ S, EndsAt U r S j ∧ S.card = n := by
  classical
  intro n
  induction n with
  | zero =>
    intro j hj hn
    exact absurd (hf.pos j hj) (by omega)
  | succ n ih =>
    intro j hj hn
    obtain hone | ⟨i, hi, hij, hin⟩ := hf.pred j hj
    · refine ⟨{j}, ⟨⟨by simpa using hj, by simp⟩, by simp, by simp⟩, ?_⟩
      rw [Finset.card_singleton]
      omega
    · obtain ⟨S, hS, hcard⟩ := ih i hi (by omega)
      have hbelow : ∀ k ∈ S, r k j := by
        intro k hk
        cases hS.before k hk with
        | inl heq => exact heq ▸ hij
        | inr hki => exact Trans.trans hki hij
      have hnot : j ∉ S := by
        intro hin
        have hlt := hf.strict j hj j hj (hbelow j hin)
        omega
      refine ⟨insert j S, ⟨⟨?_, ?_⟩, Finset.mem_insert_self j S, ?_⟩, ?_⟩
      · exact Finset.insert_subset hj hS.inside
      · rw [Finset.coe_insert]
        exact hS.chain.insert fun k hk _ => .inr (hbelow k hk)
      · intro k hk
        cases Finset.mem_insert.mp hk with
        | inl heq => exact .inl heq
        | inr hin => exact .inr (hbelow k hin)
      · rw [Finset.card_insert_of_notMem hnot, hcard]

/-- The height is the length of the longest chain that ends at the element. -/
theorem Height.isGreatest [IsTrans ι r] (hf : Height U r f) (hj : j ∈ U) :
    IsGreatest {n | ∃ S, EndsAt U r S j ∧ S.card = n} (f j) := by
  constructor
  · exact hf.exists_chain (f j) j hj rfl
  · rintro n ⟨S, hS, rfl⟩
    exact hf.card_le hS

/-! ## Chains through an element -/

theorem Height.card_through (hf : Height U r f) (hg : Height U (flip r) g) (h : Chain U r S) (hj : j ∈ S) :
    S.card + 1 ≤ f j + g j := by
  classical
  have hbelow : EndsAt U r (S.filter fun i => i = j ∨ r i j) j :=
    ⟨h.filter _, Finset.mem_filter.mpr ⟨hj, .inl rfl⟩, fun i hi => (Finset.mem_filter.mp hi).2⟩
  have habove : EndsAt U (flip r) (S.filter fun i => i = j ∨ r j i) j :=
    ⟨(h.filter _).flip, Finset.mem_filter.mpr ⟨hj, .inl rfl⟩, fun i hi => (Finset.mem_filter.mp hi).2⟩
  have hle := hf.card_le hbelow
  have hge := hg.card_le habove
  -- The two parts cover the chain and share the element.
  have hunion : S ⊆ (S.filter fun i => i = j ∨ r i j) ∪ S.filter fun i => i = j ∨ r j i := by
    intro i hi
    rw [Finset.mem_union, Finset.mem_filter, Finset.mem_filter]
    by_cases heq : i = j
    · exact .inl ⟨hi, .inl heq⟩
    · cases h.chain hi hj heq with
      | inl hij => exact .inl ⟨hi, .inr hij⟩
      | inr hji => exact .inr ⟨hi, .inr hji⟩
  have hboth : 0 < ((S.filter fun i => i = j ∨ r i j) ∩ S.filter fun i => i = j ∨ r j i).card := by
    apply Finset.card_pos.mpr
    exact ⟨j, Finset.mem_inter.mpr ⟨hbelow.last, habove.last⟩⟩
  have hcount := Finset.card_union_add_card_inter (S.filter fun i => i = j ∨ r i j) (S.filter fun i => i = j ∨ r j i)
  have hcover := Finset.card_le_card hunion
  omega

/-- A longest chain through an element has the heights on both its sides. -/
theorem Height.exists_through [IsTrans ι r] (hf : Height U r f) (hg : Height U (flip r) g) (hj : j ∈ U) :
    ∃ S, Chain U r S ∧ j ∈ S ∧ S.card + 1 = f j + g j := by
  classical
  have htrans : IsTrans ι (flip r) := ⟨fun a b c hab hbc => IsTrans.trans c b a hbc hab⟩
  obtain ⟨A, hA, hAcard⟩ := hf.exists_chain (f j) j hj rfl
  obtain ⟨B, hB, hBcard⟩ := hg.exists_chain (g j) j hj rfl
  have hcross : ∀ a ∈ A, ∀ b ∈ B, a ≠ b → r a b := by
    intro a ha b hb hne
    cases hA.before a ha with
    | inl haj =>
      cases hB.before b hb with
      | inl hbj => exact absurd (haj.trans hbj.symm) hne
      | inr hjb => exact haj ▸ hjb
    | inr haj =>
      cases hB.before b hb with
      | inl hbj => exact hbj ▸ haj
      | inr hjb => exact IsTrans.trans a j b haj hjb
  have hinter : A ∩ B = {j} := by
    ext i
    rw [Finset.mem_inter, Finset.mem_singleton]
    constructor
    · rintro ⟨ha, hb⟩
      by_contra hne
      have hlow := hf.strict i (hA.inside ha) j hj ((hA.before i ha).resolve_left hne)
      have hhigh := hf.strict j hj i (hA.inside ha) ((hB.before i hb).resolve_left hne)
      omega
    · rintro rfl
      exact ⟨hA.last, hB.last⟩
  refine ⟨A ∪ B, ⟨Finset.union_subset hA.inside hB.inside, ?_⟩, Finset.mem_union_left B hA.last, ?_⟩
  · intro a ha b hb hne
    rw [Finset.mem_coe, Finset.mem_union] at ha hb
    cases ha with
    | inl ha =>
      cases hb with
      | inl hb => exact hA.chain ha hb hne
      | inr hb => exact .inl (hcross a ha b hb hne)
    | inr ha =>
      cases hb with
      | inl hb => exact .inr (hcross b hb a ha hne.symm)
      | inr hb => exact hB.toChain.flip.chain ha hb hne
  · have hcount := Finset.card_union_add_card_inter A B
    rw [hinter, Finset.card_singleton] at hcount
    omega

/-! ## What every longest chain has -/

/-- The largest height, given as a bound that is reached unless there is no element. -/
structure Top (U : Finset ι) (f : ι → Nat) (top : Nat) : Prop where
  bound : ∀ i ∈ U, f i ≤ top
  reached : U.Nonempty → ∃ i ∈ U, f i = top

variable {top : Nat}

theorem Height.card_le_top (hf : Height U r f) (htop : Top U f top) (h : Chain U r S) : S.card ≤ top := by
  obtain rfl | hne := S.eq_empty_or_nonempty
  · simp
  · obtain ⟨j, hj, hmax⟩ := S.exists_max_image f hne
    have hends : EndsAt U r S j := by
      refine ⟨h, hj, fun i hi => ?_⟩
      by_cases heq : i = j
      · exact .inl heq
      · cases h.chain hi hj heq with
        | inl hij => exact .inr hij
        | inr hji =>
          have hlt := hf.strict j (h.inside hj) i (h.inside hi) hji
          exact absurd (hmax i hi) (by omega)
    exact (hf.card_le hends).trans (htop.bound j (h.inside hj))

theorem Longest.card_eq [IsTrans ι r] (hf : Height U r f) (htop : Top U f top) (hU : U.Nonempty)
    (h : Longest U r S) : S.card = top := by
  obtain ⟨i, hi, heq⟩ := htop.reached hU
  obtain ⟨T, hT, hcard⟩ := hf.exists_chain (f i) i hi rfl
  have hle := hf.card_le_top htop h.toChain
  have hge := h.largest T hT.toChain
  omega

theorem longest_of_card (hf : Height U r f) (htop : Top U f top) (h : Chain U r S)
    (hcard : S.card = top) : Longest U r S :=
  ⟨h, fun _ hT => hcard ▸ hf.card_le_top htop hT⟩

/-- An element of a longest chain that is alone with its height there. -/
structure Forced (U : Finset ι) (f g : ι → Nat) (top : Nat) (i : ι) : Prop where
  on_longest : f i + g i = top + 1
  alone : ∀ j ∈ U, f j = f i → f j + g j = top + 1 → j = i

/-- Every longest chain has an element at each height. -/
theorem Longest.exists_height [IsTrans ι r] (hf : Height U r f) (htop : Top U f top)
    (h : Longest U r S) (hi : i ∈ U) : ∃ j ∈ S, f j = f i := by
  classical
  have himage : S.image f ⊆ Finset.Icc 1 top := by
    intro n hn
    obtain ⟨j, hj, rfl⟩ := Finset.mem_image.mp hn
    exact Finset.mem_Icc.mpr ⟨hf.pos j (h.inside hj), htop.bound j (h.inside hj)⟩
  have hcard : (S.image f).card = (Finset.Icc 1 top).card := by
    rw [Finset.card_image_of_injOn (hf.injOn h.toChain), h.card_eq hf htop ⟨i, hi⟩]
    simp
  have hall := Finset.eq_of_subset_of_card_le himage hcard.ge
  have hin : f i ∈ S.image f := by
    rw [hall]
    exact Finset.mem_Icc.mpr ⟨hf.pos i hi, htop.bound i hi⟩
  exact Finset.mem_image.mp hin

theorem forced_iff [IsTrans ι r] (hf : Height U r f) (hg : Height U (flip r) g) (htop : Top U f top) (hi : i ∈ U) :
    Forced U f g top i ↔ ∀ S, Longest U r S → i ∈ S := by
  have hlong : ∀ j ∈ U, f j + g j = top + 1 → ∃ S, Longest U r S ∧ j ∈ S := by
    intro j hj hsum
    obtain ⟨S, hS, hin, hcard⟩ := hf.exists_through hg hj
    exact ⟨S, longest_of_card hf htop hS (by omega), hin⟩
  constructor
  · intro h S hS
    obtain ⟨j, hj, heq⟩ := hS.exists_height hf htop hi
    have hcard := hS.card_eq hf htop ⟨i, hi⟩
    have hge := hf.card_through hg hS.toChain hj
    -- A chain through the element is no longer than the longest.
    obtain ⟨T, hT, -, hTcard⟩ := hf.exists_through hg (hS.inside hj)
    have hle := hf.card_le_top htop hT
    exact h.alone j (hS.inside hj) heq (by omega) ▸ hj
  · intro h
    obtain ⟨k, hk, hktop⟩ := htop.reached ⟨i, hi⟩
    obtain ⟨T, hT, hTcard⟩ := hf.exists_chain (f k) k hk rfl
    have hTlong := longest_of_card hf htop hT.toChain (by omega)
    constructor
    · have hge := hf.card_through hg hTlong.toChain (h T hTlong)
      obtain ⟨S, hS, -, hcard⟩ := hf.exists_through hg hi
      have hle := hf.card_le_top htop hS
      omega
    · intro j hj heq hsum
      -- A longest chain through the other element would have two of one height.
      obtain ⟨S, hS, hin⟩ := hlong j hj hsum
      exact hf.injOn hS.toChain hin (h S hS) heq

end ChainHeight
