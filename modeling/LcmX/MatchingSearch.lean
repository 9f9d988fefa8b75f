import LcmX.MatchingState

/-!
# The search for an augmenting path

A search only reads the placement: it grows the dead keys, the parents and the
queue, and prunes `movable`. `Sound` holds at every point of it, also when it is
cut short; `Walked` holds while it has neither found a free key nor spent the
budget, and says that what was walked leads only to keys already visited or dead.
-/
namespace RecognitionMatching

open Finset

variable {K : Type} [DecidableEq K]

/-- What any part of a search may do to its state. -/
structure Grows (s s' : Search K) : Prop where
  load : s'.load = s.load
  units : s'.units = s.units
  matched : s'.matched = s.matched
  dead : s.dead ⊆ s'.dead
  visited : s.parentKeys ⊆ s'.parentKeys

omit [DecidableEq K] in
theorem Grows.refl (s : Search K) : Grows s s :=
  ⟨rfl, rfl, rfl, Finset.Subset.refl _, List.Subset.refl _⟩

omit [DecidableEq K] in
theorem Grows.trans {a b c : Search K} (h : Grows a b) (h' : Grows b c) : Grows a c :=
  ⟨h'.load.trans h.load, h'.units.trans h.units, h'.matched.trans h.matched,
    Finset.Subset.trans h.dead h'.dead, List.Subset.trans h.visited h'.visited⟩

/-- The parent pointer of a visited key: a key of the row, or the target of a
unit sitting on an earlier visited key that is not dead. -/
def Entry (own : List K) (st : MatchState K) (pre : List (K × Option (List K × K))) (k : K) :
    Option (List K × K) → Prop
  | none => k ∈ own
  | some (kind, p) => k ∈ kind ∧ p ∈ pre.map Prod.fst ∧ 0 < st.units kind p ∧ p ∉ st.dead

structure Sound (cap : K → Nat) (T : Finset (List K)) (own : List K) (s : Search K) : Prop where
  inv : Inv cap T none s.toMatchState
  nodup : s.parentKeys.Nodup
  entry : ∀ pre k e post, s.parent = pre ++ (k, e) :: post → Entry own s.toMatchState pre k e
  full : ∀ k ∈ s.parentKeys, s.found ≠ some k → s.load k = cap k
  free : ∀ k, s.found = some k → k ∈ s.parentKeys ∧ s.load k < cap k
  live : ∀ k ∈ s.queue, k ∈ s.parentKeys ∧ k ∉ s.dead

/-- Visited or known to lead nowhere. -/
def Covered (s : Search K) (k : K) : Prop := k ∈ s.dead ∨ k ∈ s.parentKeys

/-- Every unit on `k` can only go to covered keys. -/
def Settled (s : Search K) (k : K) : Prop := ∀ t, 0 < s.units t k → ∀ k' ∈ t, Covered s k'

/-- Every visited key waits in the queue, is dead, is the one being expanded or
is settled. -/
def Walked (cur : Option K) (s : Search K) : Prop :=
  ∀ k ∈ s.parentKeys, k ∈ s.queue ∨ k ∈ s.dead ∨ cur = some k ∨ Settled s k

def SeenCovered (s : Search K) : Prop := ∀ t ∈ s.seen, ∀ k ∈ t, Covered s k

omit [DecidableEq K] in
theorem Covered.mono {s s' : Search K} {k : K} (h : Grows s s') (hc : Covered s k) : Covered s' k :=
  hc.imp (fun hd => h.dead hd) (fun hv => h.visited hv)

omit [DecidableEq K] in
theorem Settled.mono {s s' : Search K} {k : K} (h : Grows s s') (hs : Settled s k) : Settled s' k := by
  intro t ht k' hk'
  rw [h.units] at ht
  exact (hs t ht k' hk').mono h

/-- A split of a list with one more element is a split of the list or the new end. -/
theorem snoc_split {α : Type} {l pre post : List α} {x y : α} (h : l ++ [x] = pre ++ y :: post) :
    (pre = l ∧ y = x ∧ post = []) ∨ ∃ post', post = post' ++ [x] ∧ l = pre ++ y :: post' := by
  rcases List.eq_nil_or_concat post with rfl | ⟨post', z, rfl⟩
  · left
    have hl := List.append_inj' h rfl
    exact ⟨hl.1.symm, by simpa using hl.2.symm, rfl⟩
  · right
    have he : l ++ [x] = (pre ++ y :: post') ++ [z] := by simpa using h
    have hl := List.append_inj' he rfl
    have hz : x = z := by simpa using hl.2
    exact ⟨post', by rw [hz, List.concat_eq_append], hl.1⟩

omit [DecidableEq K] in
@[simp] theorem visit_parentKeys (s : Search K) (k : K) (e : Option (List K × K)) :
    (s.visit k e).parentKeys = s.parentKeys ++ [k] := by
  simp [Search.visit, Search.parentKeys]

@[simp] theorem enqueue_parent (s : Search K) (k : K) : (s.enqueue k).parent = s.parent := by
  unfold Search.enqueue; split <;> rfl

@[simp] theorem enqueue_parentKeys (s : Search K) (k : K) : (s.enqueue k).parentKeys = s.parentKeys := by
  simp [Search.parentKeys]

@[simp] theorem enqueue_found (s : Search K) (k : K) : (s.enqueue k).found = s.found := by
  unfold Search.enqueue; split <;> rfl

@[simp] theorem enqueue_spent (s : Search K) (k : K) : (s.enqueue k).spent = s.spent := by
  unfold Search.enqueue; split <;> rfl

@[simp] theorem enqueue_seen (s : Search K) (k : K) : (s.enqueue k).seen = s.seen := by
  unfold Search.enqueue; split <;> rfl

theorem grows_visit_enqueue (s : Search K) (k : K) (e : Option (List K × K)) :
    Grows s ((s.visit k e).enqueue k) := by
  constructor
  · unfold Search.enqueue; split <;> rfl
  · unfold Search.enqueue; split <;> rfl
  · unfold Search.enqueue; split <;> rfl
  · intro x hx
    unfold Search.enqueue
    split
    · exact mem_insert_of_mem hx
    · exact hx
  · simp

/-- Adding a full key whose other units are all stuck keeps the dead keys closed. -/
theorem inv_kill {cap : K → Nat} {T : Finset (List K)} {st : MatchState K} {k : K}
    (h : Inv cap T none st) (hfull : st.load k = cap k) (hm : st.movable k = []) :
    Inv cap T none { st with dead := insert k st.dead } := by
  have hself : ∀ t, 0 < st.units t k → ∀ k' ∈ t, k' ∈ insert k st.dead := by
    intro t ht k' hk'
    by_cases he : k' = k
    · exact he ▸ mem_insert_self _ _
    · rcases h.stuck t k ht with hmem | hs
      · rw [hm] at hmem; exact absurd hmem List.not_mem_nil
      · exact mem_insert_of_mem (hs k' hk' he)
  constructor
  · exact h.unit_mem
  · exact h.load_eq
  · exact h.load_le
  · exact h.movable_unit
  · intro t k' ht
    exact (h.stuck t k' ht).imp_right (fun hs k'' hk'' hne => mem_insert_of_mem (hs k'' hk'' hne))
  · intro k' hk'
    rcases mem_insert.mp hk' with rfl | hk'
    · exact hfull
    · exact h.dead_full k' hk'
  · intro k' hk' t ht
    rcases mem_insert.mp hk' with rfl | hk'
    · exact hself t ht
    · exact fun k'' hk'' => mem_insert_of_mem (h.dead_closed k' hk' t ht k'' hk'')

section Visit

variable {cap : K → Nat} {T : Finset (List K)} {own : List K} {s : Search K}

variable {k : K} {e : Option (List K × K)}

omit [DecidableEq K] in
/-- The entries of the parents survive a state in which the units are the same
and no pointer's source has died. -/
theorem Entry.mono {st st' : MatchState K} {pre : List (K × Option (List K × K))}
    (h : Entry own st pre k e) (hu : st'.units = st.units)
    (hd : ∀ p ∈ pre.map Prod.fst, p ∉ st.dead → p ∉ st'.dead) : Entry own st' pre k e := by
  cases e with
  | none => exact h
  | some e =>
    obtain ⟨h1, h2, h3, h4⟩ := h
    exact ⟨h1, h2, by rw [hu]; exact h3, hd _ h2 h4⟩

omit [DecidableEq K] in
theorem visit_nodup (e : Option (List K × K)) (h : s.parentKeys.Nodup)
    (hk : k ∉ s.parentKeys) : (s.visit k e).parentKeys.Nodup := by
  rw [visit_parentKeys, List.nodup_append]
  refine ⟨h, by simp, ?_⟩
  intro a ha b hb hab
  rw [List.mem_singleton] at hb
  exact hk (by rw [← hb, ← hab]; exact ha)

omit [DecidableEq K] in
theorem visit_subset (s : Search K) (k : K) (e : Option (List K × K)) :
    s.parentKeys ⊆ (s.visit k e).parentKeys := by
  rw [visit_parentKeys]
  exact List.subset_append_left _ _

/-- After a visit all parent pointers are as before or the new one, and they
start at keys visited before `k`. -/
theorem visit_entry (h : Sound cap T own s)
    (hk : k ∉ s.parentKeys) (he : Entry own s.toMatchState s.parent k e)
    (pre : List (K × Option (List K × K))) (x : K) (f : Option (List K × K))
    (post : List (K × Option (List K × K))) (hp : (s.visit k e).parent = pre ++ (x, f) :: post) :
    Entry own s.toMatchState pre x f ∧ ∀ p ∈ pre.map Prod.fst, p ≠ k := by
  rcases snoc_split hp with ⟨rfl, hx, -⟩ | ⟨post', -, hl⟩
  · obtain ⟨rfl, rfl⟩ := Prod.mk.inj hx
    exact ⟨he, fun p hp hpk => hk (hpk ▸ hp)⟩
  · refine ⟨h.entry pre x f post' hl, fun p hp hpk => hk ?_⟩
    rw [Search.parentKeys, hl, ← hpk]
    simp only [List.map_append, List.mem_append]
    exact Or.inl hp

/-- Visiting a key that is full, not dead and not visited before. -/
theorem sound_visit_enqueue (h : Sound cap T own s) (hf : s.found = none)
    (hk : k ∉ s.parentKeys) (hd : k ∉ s.dead) (hfull : s.load k = cap k)
    (he : Entry own s.toMatchState s.parent k e) :
    Sound cap T own ((s.visit k e).enqueue k) := by
  have hnodup := visit_nodup e h.nodup hk
  have hvis := visit_subset s k e
  have hfull' : ∀ x ∈ (s.visit k e).parentKeys, s.found ≠ some x → s.load x = cap x := by
    intro x hx hne
    rw [visit_parentKeys, List.mem_append, List.mem_singleton] at hx
    rcases hx with hx | rfl
    · exact h.full x hx hne
    · exact hfull
  have hfree' : ∀ x, s.found = some x → x ∈ (s.visit k e).parentKeys ∧ s.load x < cap x := by
    intro x hx
    rw [hf] at hx
    cases hx
  unfold Search.enqueue
  split
  · rename_i hm
    refine ⟨inv_kill h.inv hfull hm, hnodup, ?_, hfull', hfree', ?_⟩
    · intro pre x f post hp
      obtain ⟨hent, hne⟩ := visit_entry h hk he pre x f post hp
      refine hent.mono rfl (fun p hpm hpd => ?_)
      exact fun hmem => (mem_insert.mp hmem).elim (hne p hpm) hpd
    · intro x hx
      obtain ⟨hv, hnd⟩ := h.live x hx
      refine ⟨hvis hv, fun hmem => ?_⟩
      exact (mem_insert.mp hmem).elim (fun hxk => hk (hxk ▸ hv)) hnd
  · refine ⟨h.inv, hnodup, fun pre x f post hp => (visit_entry h hk he pre x f post hp).1, hfull',
      hfree', ?_⟩
    intro x hx
    rcases List.mem_append.mp hx with hx | hx
    · obtain ⟨hv, hnd⟩ := h.live x hx
      exact ⟨hvis hv, hnd⟩
    · rw [List.mem_singleton] at hx
      subst hx
      refine ⟨?_, hd⟩
      change x ∈ (s.visit x e).parentKeys
      simp

/-- Visiting a free key ends the search. -/
theorem sound_visit_found (h : Sound cap T own s) (hf : s.found = none)
    (hk : k ∉ s.parentKeys) (hfree : s.load k < cap k)
    (he : Entry own s.toMatchState s.parent k e) :
    Sound cap T own { s.visit k e with found := some k } := by
  refine ⟨h.inv, visit_nodup e h.nodup hk, fun pre x f post hp => (visit_entry h hk he pre x f post hp).1,
    ?_, ?_, fun x hx => ⟨visit_subset s k e (h.live x hx).1, (h.live x hx).2⟩⟩
  · intro x hx hne
    change x ∈ (s.visit k e).parentKeys at hx
    rw [visit_parentKeys, List.mem_append, List.mem_singleton] at hx
    rcases hx with hx | rfl
    · exact h.full x hx (by rw [hf]; simp)
    · exact absurd rfl hne
  · intro x hx
    obtain rfl : k = x := by simpa using hx
    refine ⟨?_, hfree⟩
    change k ∈ (s.visit k e).parentKeys
    simp

theorem walked_visit_enqueue {cur : Option K} (h : Walked cur s) (k : K) (e : Option (List K × K)) :
    Walked cur ((s.visit k e).enqueue k) := by
  have hg := grows_visit_enqueue s k e
  have hk : k ∈ ((s.visit k e).enqueue k).queue ∨ k ∈ ((s.visit k e).enqueue k).dead := by
    unfold Search.enqueue
    split
    · exact Or.inr (mem_insert_self _ _)
    · exact Or.inl (by simp)
  have hq : ∀ x ∈ s.queue, x ∈ ((s.visit k e).enqueue k).queue := by
    intro x hx
    unfold Search.enqueue
    split
    · exact hx
    · exact List.mem_append_left _ hx
  intro x hx
  rw [enqueue_parentKeys, visit_parentKeys, List.mem_append, List.mem_singleton] at hx
  rcases hx with hx | rfl
  · rcases h x hx with h1 | h1 | h1 | h1
    · exact Or.inl (hq x h1)
    · exact Or.inr (Or.inl (hg.dead h1))
    · exact Or.inr (Or.inr (Or.inl h1))
    · exact Or.inr (Or.inr (Or.inr (h1.mono hg)))
  · exact hk.imp_right Or.inl

/-- The passes still ahead: what is queued and what can still be queued. -/
def passes (keys : Finset K) (s : Search K) : Nat :=
  s.queue.length + (keys \ s.parentKeys.toFinset).card

theorem passes_visit_enqueue (keys : Finset K) (e : Option (List K × K)) (hk : k ∈ keys)
    (hv : k ∉ s.parentKeys) : passes keys ((s.visit k e).enqueue k) ≤ passes keys s := by
  have hlt : (keys \ (s.parentKeys ++ [k]).toFinset).card < (keys \ s.parentKeys.toFinset).card := by
    apply card_lt_card
    rw [ssubset_iff_of_subset]
    · exact ⟨k, by simp [hk, hv], by simp⟩
    · apply sdiff_subset_sdiff (Finset.Subset.refl _)
      intro x hx
      simp only [List.toFinset_append, mem_union]
      exact Or.inl hx
  have hq : ((s.visit k e).enqueue k).queue.length ≤ s.queue.length + 1 := by
    unfold Search.enqueue
    split
    · exact Nat.le_succ _
    · simp [Search.visit]
  simp only [passes, enqueue_parentKeys, visit_parentKeys]
  omega

end Visit

/-- Invariants that do not read the budget survive a change of it. -/
theorem Inv.setWork {cap : K → Nat} {T : Finset (List K)} {hole : Option K} {st : MatchState K}
    (h : Inv cap T hole st) (w : Nat) (b : Bool) :
    Inv cap T hole { st with work := w, spent := b } :=
  ⟨h.unit_mem, h.load_eq, h.load_le, h.movable_unit, h.stuck, h.dead_full, h.dead_closed⟩

theorem Sound.setWork {cap : K → Nat} {T : Finset (List K)} {own : List K} {s : Search K}
    (h : Sound cap T own s) (w : Nat) (b : Bool) : Sound cap T own { s with work := w, spent := b } :=
  ⟨h.inv.setWork w b, h.nodup, h.entry, h.full, h.free, h.live⟩

end RecognitionMatching
