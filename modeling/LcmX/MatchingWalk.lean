import LcmX.MatchingSearch

/-!
# A finished search closes the dead keys

The three loops of the search, from the inside out. A search that ends without a
free key and within its budget has walked its queue to the end, so the visited
keys join the dead ones: they are full, and no unit on them can leave.
-/
namespace RecognitionMatching

open Finset

variable {K : Type} [DecidableEq K]
variable {cap : K → Nat} {T : Finset (List K)} {own : List K} {keys : Finset K}

/-- One part of a search: what it keeps always, and what it keeps while neither
a free key is found nor the budget spent. -/
structure Step (cap : K → Nat) (T : Finset (List K)) (own : List K) (keys : Finset K)
    (s s' : Search K) : Prop where
  sound : Sound cap T own s'
  grows : Grows s s'
  movable : s'.movable = s.movable
  alive : ∀ k ∈ s.parentKeys, k ∉ s.dead → k ∉ s'.dead
  passes : s'.found = none → s'.spent = false → passes keys s' ≤ passes keys s
  walked : s'.found = none → s'.spent = false → ∀ cur, Walked cur s → Walked cur s'

variable {s : Search K} {k : K}

theorem Step.refl (h : Sound cap T own s) : Step cap T own keys s s :=
  ⟨h, Grows.refl s, rfl, fun _ _ hd => hd, fun _ _ => Nat.le_refl _, fun _ _ _ hw => hw⟩

theorem Step.trans {a b c : Search K} (h : Step cap T own keys a b) (h' : Step cap T own keys b c)
    (hb : c.found = none → c.spent = false → b.found = none ∧ b.spent = false) :
    Step cap T own keys a c := by
  refine ⟨h'.sound, h.grows.trans h'.grows, h'.movable.trans h.movable, ?_, ?_, ?_⟩
  · exact fun k hk hd => h'.alive k (h.grows.visited hk) (h.alive k hk hd)
  · intro hf hs
    obtain ⟨hf', hs'⟩ := hb hf hs
    exact Nat.le_trans (h'.passes hf hs) (h.passes hf' hs')
  · intro hf hs cur hw
    obtain ⟨hf', hs'⟩ := hb hf hs
    exact h'.walked hf hs cur (h.walked hf' hs' cur hw)

theorem step_setWork (h : Sound cap T own s) (w : Nat) (b : Bool) :
    Step cap T own keys s { s with work := w, spent := b } :=
  ⟨h.setWork w b, ⟨rfl, rfl, rfl, Finset.Subset.refl _, List.Subset.refl _⟩, rfl, fun _ _ hd => hd,
    fun _ _ => Nat.le_refl _, fun _ _ _ hw => hw⟩

/-- Marking a type as expanded changes nothing that `Step` reads. -/
theorem step_see (h : Sound cap T own s) (kind : List K) :
    Step cap T own keys s { s with seen := kind :: s.seen } :=
  ⟨⟨h.inv, h.nodup, h.entry, h.full, h.free, h.live⟩,
    ⟨rfl, rfl, rfl, Finset.Subset.refl _, List.Subset.refl _⟩, rfl, fun _ _ hd => hd,
    fun _ _ => Nat.le_refl _, fun _ _ _ hw => hw⟩

theorem step_visit_enqueue (h : Sound cap T own s) (hf : s.found = none)
    {e : Option (List K × K)} (hkeys : k ∈ keys) (hk : k ∉ s.parentKeys) (hd : k ∉ s.dead)
    (hfull : s.load k = cap k) (he : Entry own s.toMatchState s.parent k e) :
    Step cap T own keys s ((s.visit k e).enqueue k) := by
  refine ⟨sound_visit_enqueue h hf hk hd hfull he, grows_visit_enqueue s k e, ?_, ?_,
    fun _ _ => passes_visit_enqueue keys e hkeys hk, fun _ _ _ hw => walked_visit_enqueue hw k e⟩
  · unfold Search.enqueue; split <;> rfl
  · intro x hx hxd
    unfold Search.enqueue
    split
    · exact fun hmem => (mem_insert.mp hmem).elim (fun hxk => hk (hxk ▸ hx)) hxd
    · exact hxd

/-- The walk over the other keys of a type with a unit on `k`. -/
theorem scanOthers_step (budget : Nat) {kind : List K} (hT : ∀ t ∈ T, ∀ x ∈ t, x ∈ keys)
    (others : List K) : ∀ (s : Search K), Sound cap T own s → s.found = none → s.spent = false →
      0 < s.units kind k → k ∈ s.parentKeys → k ∉ s.dead →
      (∀ o ∈ others, o ∈ kind ∧ (o ∉ s.dead ∨ o ∈ s.parentKeys)) →
      Step cap T own keys s (scanOthers cap budget kind k others s) ∧
      (scanOthers cap budget kind k others s).seen = s.seen ∧
      ((scanOthers cap budget kind k others s).found = none →
        (scanOthers cap budget kind k others s).spent = false →
        ∀ o ∈ others, Covered (scanOthers cap budget kind k others s) o) := by
  induction others with
  | nil => exact fun s h _ _ _ _ _ _ => ⟨Step.refl h, rfl, by simp⟩
  | cons other rest ih =>
    intro s h hf hs hu hk hkd ho
    obtain ⟨hok, hod⟩ := ho other (by simp)
    have hrest : ∀ o ∈ rest, o ∈ kind ∧ (o ∉ s.dead ∨ o ∈ s.parentKeys) :=
      fun o hmem => ho o (List.mem_cons_of_mem _ hmem)
    simp only [scanOthers]
    split
    · rename_i hv
      obtain ⟨hst, hseen, hcov⟩ := ih s h hf hs hu hk hkd hrest
      refine ⟨hst, hseen, fun hf' hs' o hmem => ?_⟩
      rcases List.mem_cons.mp hmem with rfl | hmem
      · exact Or.inr (hst.grows.visited hv)
      · exact hcov hf' hs' o hmem
    · rename_i hv
      split
      · exact ⟨step_setWork h s.work true, rfl, by simp⟩
      · have hw : Step cap T own keys s { s with work := s.work + 1 } := step_setWork h _ s.spent
        have hkeys : other ∈ keys := hT kind (h.inv.unit_mem _ _ hu).1 other hok
        have hd : other ∉ s.dead := hod.resolve_right hv
        have hent : Entry own { s with work := s.work + 1 }.toMatchState s.parent other
            (some (kind, k)) := ⟨hok, hk, hu, hkd⟩
        split
        · rename_i hfree
          refine ⟨⟨sound_visit_found hw.sound hf hv hfree hent, ?_, rfl, fun _ _ hd => hd, by simp, by simp⟩,
            rfl, by simp⟩
          exact ⟨rfl, rfl, rfl, Finset.Subset.refl _, visit_subset _ _ _⟩
        · rename_i hfull
          have hfull' : s.load other = cap other :=
            Nat.le_antisymm (h.inv.load_le other) (Nat.le_of_not_lt hfull)
          have hvs : Step cap T own keys s
              (({ s with work := s.work + 1 }.visit other (some (kind, k))).enqueue other) :=
            hw.trans (step_visit_enqueue hw.sound hf hkeys hv hd hfull' hent) (fun _ _ => ⟨hf, hs⟩)
          have hf' : (({ s with work := s.work + 1 }.visit other (some (kind, k))).enqueue other).found = none := by
            rw [enqueue_found]; exact hf
          have hs' : (({ s with work := s.work + 1 }.visit other (some (kind, k))).enqueue other).spent = false := by
            rw [enqueue_spent]; exact hs
          obtain ⟨hst, hseen, hcov⟩ := ih _ hvs.sound hf' hs' (by rw [hvs.grows.units]; exact hu)
            (hvs.grows.visited hk) (hvs.alive k hk hkd) (by
              intro o hmem
              obtain ⟨h1, h2⟩ := hrest o hmem
              refine ⟨h1, ?_⟩
              by_cases hoo : o ∈ s.parentKeys
              · exact Or.inr (hvs.grows.visited hoo)
              · by_cases he : o = other
                · subst he
                  exact Or.inr (by simp)
                · left
                  have hnd := h2.resolve_right hoo
                  unfold Search.enqueue
                  split
                  · exact fun hmem => (mem_insert.mp hmem).elim he hnd
                  · exact hnd)
          refine ⟨hvs.trans hst (fun _ _ => ⟨hf', hs'⟩), ?_, ?_⟩
          · rw [hseen, enqueue_seen]; rfl
          · intro hf'' hs'' o hmem
            rcases List.mem_cons.mp hmem with rfl | hmem
            · exact Or.inr (hst.grows.visited (by simp))
            · exact hcov hf'' hs'' o hmem

theorem mem_othersOf (dead : Finset K) (kind : List K) (k x : K) :
    x ∈ othersOf dead kind k ↔ x ∈ kind ∧ x ≠ k ∧ x ∉ dead := by
  simp [othersOf]

/-- One type with a unit on `k`: afterwards its keys are covered. -/
theorem expandKind_step (budget : Nat) (kind : List K) (hT : ∀ t ∈ T, ∀ x ∈ t, x ∈ keys)
    (h : Sound cap T own s) (hf : s.found = none) (hs : s.spent = false)
    (hu : 0 < s.units kind k) (hk : k ∈ s.parentKeys) (hkd : k ∉ s.dead) (hseen : SeenCovered s) :
    Step cap T own keys s (expandKind cap budget kind k s) ∧
    ((expandKind cap budget kind k s).found = none → (expandKind cap budget kind k s).spent = false →
      SeenCovered (expandKind cap budget kind k s) ∧
      ∀ x ∈ kind, x ≠ k → Covered (expandKind cap budget kind k s) x) := by
  unfold expandKind
  split
  · rename_i hin
    exact ⟨Step.refl h, fun _ _ => ⟨hseen, fun x hx _ => hseen kind hin x hx⟩⟩
  · have hsee : Step cap T own keys s { s with seen := kind :: s.seen } := step_see h kind
    obtain ⟨hst, hsn, hcov⟩ := scanOthers_step budget hT (othersOf s.dead kind k) _ hsee.sound hf hs
      hu hk hkd (fun o ho => ⟨((mem_othersOf _ _ _ _).mp ho).1, Or.inl ((mem_othersOf _ _ _ _).mp ho).2.2⟩)
    have hall := hsee.trans hst (fun _ _ => ⟨hf, hs⟩)
    generalize scanOthers cap budget kind k (othersOf s.dead kind k) { s with seen := kind :: s.seen } =
      s' at hst hsn hcov hall
    refine ⟨hall, fun hf' hs' => ?_⟩
    have hkind : ∀ x ∈ kind, x ≠ k → Covered s' x := by
      intro x hx hne
      by_cases hd : x ∈ s.dead
      · exact Or.inl (hall.grows.dead hd)
      · exact hcov hf' hs' x ((mem_othersOf _ _ _ _).mpr ⟨hx, hne, hd⟩)
    refine ⟨fun t ht x hx => ?_, hkind⟩
    rw [hsn] at ht
    rcases List.mem_cons.mp ht with rfl | ht
    · by_cases hxk : x = k
      · exact Or.inr (hall.grows.visited (hxk ▸ hk))
      · exact hkind x hx hxk
    · exact (hseen t ht x hx).mono hall.grows

omit [DecidableEq K] in
/-- A search that is not stopped has neither found a key nor spent its budget. -/
theorem not_stopped (h : ¬ (s.found.isSome || s.spent) = true) :
    s.found = none ∧ s.spent = false := by
  cases hf : s.found <;> cases hs : s.spent <;> simp_all

/-- The loop over the types that have a unit on `k`. -/
theorem scanKinds_step (budget : Nat) (hT : ∀ t ∈ T, ∀ x ∈ t, x ∈ keys) (kinds : List (List K)) :
    ∀ (s : Search K), Sound cap T own s → s.found = none → s.spent = false →
      (∀ kind ∈ kinds, 0 < s.units kind k) → k ∈ s.parentKeys → k ∉ s.dead → SeenCovered s →
      Step cap T own keys s (scanKinds cap budget k kinds s).1 ∧
      (∀ kind ∈ (scanKinds cap budget k kinds s).2, ∀ x ∈ kind, x ≠ k →
        x ∈ (scanKinds cap budget k kinds s).1.dead) ∧
      ((scanKinds cap budget k kinds s).1.found = none →
        (scanKinds cap budget k kinds s).1.spent = false →
        SeenCovered (scanKinds cap budget k kinds s).1 ∧
        ∀ kind ∈ kinds, ∀ x ∈ kind, x ≠ k → Covered (scanKinds cap budget k kinds s).1 x) := by
  induction kinds with
  | nil => exact fun s h _ _ _ _ _ hseen => ⟨Step.refl h, by simp [scanKinds], fun _ _ => ⟨hseen, by simp⟩⟩
  | cons kind rest ih =>
    intro s h hf hs hu hk hkd hseen
    have hurest : ∀ kind ∈ rest, 0 < s.units kind k := fun t ht => hu t (List.mem_cons_of_mem _ ht)
    simp only [scanKinds]
    split
    · exact ⟨step_setWork h s.work true, by simp, by simp⟩
    · have hw : Step cap T own keys s { s with work := s.work + 1 } := step_setWork h _ s.spent
      split
      · rename_i hnone
        have hstuck : ∀ x ∈ kind, x ≠ k → x ∈ s.dead := by
          intro x hx hne
          by_contra hnd
          have hmem := (mem_othersOf s.dead kind k x).mpr ⟨hx, hne, hnd⟩
          rw [hnone] at hmem
          exact absurd hmem List.not_mem_nil
        obtain ⟨hst, hgone, hcov⟩ := ih _ hw.sound hf hs hurest hk hkd hseen
        refine ⟨hw.trans hst (fun _ _ => ⟨hf, hs⟩), ?_, ?_⟩
        · intro t ht
          rcases List.mem_cons.mp ht with rfl | ht
          · exact fun x hx hne => hst.grows.dead (hstuck x hx hne)
          · exact hgone t ht
        · intro hf' hs'
          obtain ⟨hsc, hk'⟩ := hcov hf' hs'
          refine ⟨hsc, fun t ht => ?_⟩
          rcases List.mem_cons.mp ht with rfl | ht
          · exact fun x hx hne => Or.inl (hst.grows.dead (hstuck x hx hne))
          · exact hk' t ht
      · obtain ⟨hes, hec⟩ := expandKind_step budget kind hT hw.sound hf hs
          (hu kind (by simp)) hk hkd hseen
        generalize expandKind cap budget kind k { s with work := s.work + 1 } = mid at hes hec
        have hms := hw.trans hes (fun _ _ => ⟨hf, hs⟩)
        split
        · rename_i hstop
          refine ⟨hms, by simp, fun hf' hs' => ?_⟩
          have hf'' : mid.found = none := hf'
          have hs'' : mid.spent = false := hs'
          simp [hf'', hs''] at hstop
        · rename_i hgo
          obtain ⟨hmf, hmsp⟩ := not_stopped hgo
          obtain ⟨hsc, hck⟩ := hec hmf hmsp
          obtain ⟨hst, hgone, hcov⟩ := ih mid hms.sound hmf hmsp
            (by rw [hms.grows.units]; exact hurest) (hms.grows.visited hk) (hms.alive k hk hkd) hsc
          refine ⟨hms.trans hst (fun _ _ => ⟨hmf, hmsp⟩), hgone, fun hf' hs' => ?_⟩
          obtain ⟨hsc', hk'⟩ := hcov hf' hs'
          refine ⟨hsc', fun t ht => ?_⟩
          rcases List.mem_cons.mp ht with rfl | ht
          · exact fun x hx hne => (hck x hx hne).mono hst.grows
          · exact hk' t ht

/-- Dropping from `movable` the types stuck on `k` keeps the state sound. -/
theorem sound_prune (h : Sound cap T own s) (k : K) (gone : List (List K))
    (hgone : ∀ t ∈ gone, ∀ x ∈ t, x ≠ k → x ∈ s.dead) :
    Sound cap T own
      { s with movable := Function.update s.movable k ((s.movable k).filter (fun t => t ∉ gone)) } := by
  have hsub : ∀ t x, t ∈ Function.update s.movable k ((s.movable k).filter (fun t => t ∉ gone)) x →
      t ∈ s.movable x := by
    intro t x ht
    by_cases hx : x = k
    · subst hx
      rw [Function.update_self] at ht
      exact (List.mem_filter.mp ht).1
    · rwa [Function.update_of_ne hx] at ht
  refine ⟨⟨h.inv.unit_mem, h.inv.load_eq, h.inv.load_le, fun t x ht => h.inv.movable_unit t x (hsub t x ht),
    ?_, h.inv.dead_full, h.inv.dead_closed⟩, h.nodup, h.entry, h.full, h.free, h.live⟩
  intro t x ht
  rcases h.inv.stuck t x ht with hm | hd
  · by_cases hx : x = k
    · subst hx
      by_cases hg : t ∈ gone
      · exact Or.inr (hgone t hg)
      · left
        change t ∈ Function.update s.movable x _ x
        rw [Function.update_self]
        simp [hm, hg]
    · left
      change t ∈ Function.update s.movable k _ x
      rwa [Function.update_of_ne hx]
  · exact Or.inr hd

/-- One pass of the walk: the key taken from the queue ends up settled. -/
theorem expand_step (budget : Nat) (hT : ∀ t ∈ T, ∀ x ∈ t, x ∈ keys) {queue : List K}
    (h : Sound cap T own s) (hq : s.queue = k :: queue) (hf : s.found = none) (hs : s.spent = false)
    (hseen : SeenCovered s) (hw : Walked none s) :
    Sound cap T own (expand cap budget k { s with queue := queue }) ∧
    Grows s (expand cap budget k { s with queue := queue }) ∧
    ((expand cap budget k { s with queue := queue }).found = none →
      (expand cap budget k { s with queue := queue }).spent = false →
      SeenCovered (expand cap budget k { s with queue := queue }) ∧
      Walked none (expand cap budget k { s with queue := queue }) ∧
      passes keys (expand cap budget k { s with queue := queue }) + 1 ≤ passes keys s) := by
  have hlive := h.live k (by rw [hq]; simp)
  have hpop : Sound cap T own { s with queue := queue } :=
    ⟨h.inv, h.nodup, h.entry, h.full, h.free, fun x hx => h.live x (by rw [hq]; exact List.mem_cons_of_mem _ hx)⟩
  have hwpop : Walked (some k) { s with queue := queue } := by
    intro x hx
    rcases hw x hx with h1 | h1 | h1 | h1
    · rw [hq, List.mem_cons] at h1
      rcases h1 with rfl | h1
      · exact Or.inr (Or.inr (Or.inl rfl))
      · exact Or.inl h1
    · exact Or.inr (Or.inl h1)
    · cases h1
    · exact Or.inr (Or.inr (Or.inr h1))
  obtain ⟨hst, hgone, hcov⟩ := scanKinds_step budget hT (s.movable k) { s with queue := queue } hpop hf hs
    (fun t ht => h.inv.movable_unit t k ht) hlive.1 hlive.2 hseen
  unfold expand
  generalize scanKinds cap budget k (s.movable k) { s with queue := queue } = r at hst hgone hcov
  refine ⟨sound_prune hst.sound k r.2 hgone, ?_, fun hf' hs' => ?_⟩
  · exact ⟨hst.grows.load, hst.grows.units, hst.grows.matched, hst.grows.dead, hst.grows.visited⟩
  · obtain ⟨hsc, hck⟩ := hcov hf' hs'
    refine ⟨hsc, fun x hx => ?_, ?_⟩
    · rcases hst.walked hf' hs' (some k) hwpop x hx with h1 | h1 | h1 | h1
      · exact Or.inl h1
      · exact Or.inr (Or.inl h1)
      · -- the key just expanded: its units are of a scanned type or stuck
        cases h1
        refine Or.inr (Or.inr (Or.inr (fun t ht y hy => ?_)))
        change 0 < r.1.units t k at ht
        rw [hst.grows.units] at ht
        by_cases hyk : y = k
        · exact Or.inr (hst.grows.visited (hyk ▸ hlive.1))
        · rcases h.inv.stuck t k ht with hm | hd
          · exact hck t hm y hy hyk
          · exact Or.inl (hst.grows.dead (hd y hy hyk))
      · exact Or.inr (Or.inr (Or.inr h1))
    · have hp := hst.passes hf' hs'
      have hlen : passes keys s = passes keys { s with queue := queue } + 1 := by
        simp only [passes, hq, List.length_cons, Search.parentKeys]
        omega
      rw [hlen]
      exact Nat.succ_le_succ hp

/-- With a pass for every key the walk either stops early or empties its queue. -/
theorem walk_spec (budget : Nat) (hT : ∀ t ∈ T, ∀ x ∈ t, x ∈ keys) (fuel : Nat) :
    ∀ (s : Search K), Sound cap T own s → s.found = none → s.spent = false → SeenCovered s →
      Walked none s → passes keys s ≤ fuel →
      Sound cap T own (walk cap budget fuel s) ∧ Grows s (walk cap budget fuel s) ∧
      ((walk cap budget fuel s).found = none → (walk cap budget fuel s).spent = false →
        Walked none (walk cap budget fuel s) ∧ (walk cap budget fuel s).queue = []) := by
  induction fuel with
  | zero =>
    intro s h hf hs hseen hw hp
    have hq : s.queue = [] := by
      simp only [passes] at hp
      exact List.length_eq_zero_iff.mp (by omega)
    exact ⟨h, Grows.refl s, fun _ _ => ⟨hw, hq⟩⟩
  | succ fuel ih =>
    intro s h hf hs hseen hw hp
    rw [walk]
    cases hq : s.queue with
    | nil => exact ⟨h, Grows.refl s, fun _ _ => ⟨hw, hq⟩⟩
    | cons k queue =>
      obtain ⟨hsound, hgrow, hnext⟩ := expand_step budget hT h hq hf hs hseen hw
      simp only
      generalize expand cap budget k { s with queue := queue } = s' at hsound hgrow hnext ⊢
      split
      · rename_i hstop
        refine ⟨hsound, hgrow, fun hf' hs' => ?_⟩
        simp [hf', hs'] at hstop
      · rename_i hgo
        obtain ⟨hf', hs'⟩ := not_stopped hgo
        obtain ⟨hseen', hw', hp'⟩ := hnext hf' hs'
        obtain ⟨h1, h2, h3⟩ := ih s' hsound hf' hs' hseen' hw' (by omega)
        exact ⟨h1, hgrow.trans h2, h3⟩

/-- The keys of the row, each visited or already dead. -/
theorem start_spec {st : MatchState K} (h : Inv cap T none st) (hs : st.spent = false)
    (hown : ∀ k ∈ own, k ∈ keys ∧ st.load k = cap k) (hnodup : own.Nodup) :
    Sound cap T own (start own st) ∧ (start own st).found = none ∧ (start own st).spent = false ∧
    SeenCovered (start own st) ∧ Walked none (start own st) ∧
    passes keys (start own st) ≤ keys.card ∧ (∀ k ∈ own, Covered (start own st) k) ∧
    (start own st).load = st.load ∧ (start own st).units = st.units ∧
    (start own st).matched = st.matched ∧ st.dead ⊆ (start own st).dead := by
  -- the loop over a suffix of the row's keys, from any state it can be in
  have loop : ∀ (ks : List K), ks.Nodup → (∀ k ∈ ks, k ∈ own ∧ k ∈ keys ∧ st.load k = cap k) →
      ∀ s : Search K, Sound cap T own s → s.found = none → s.spent = false → s.seen = [] →
      s.load = st.load → Walked none s → (∀ k ∈ ks, k ∉ s.parentKeys) →
      Step cap T own keys s (ks.foldl (fun s k => if k ∈ s.dead then s else (s.visit k none).enqueue k) s) ∧
      (ks.foldl (fun s k => if k ∈ s.dead then s else (s.visit k none).enqueue k) s).found = none ∧
      (ks.foldl (fun s k => if k ∈ s.dead then s else (s.visit k none).enqueue k) s).spent = false ∧
      (ks.foldl (fun s k => if k ∈ s.dead then s else (s.visit k none).enqueue k) s).seen = [] ∧
      ∀ k ∈ ks, Covered (ks.foldl (fun s k => if k ∈ s.dead then s else (s.visit k none).enqueue k) s) k := by
    intro ks
    induction ks with
    | nil => exact fun _ _ s h hf hs hsn _ _ _ => ⟨Step.refl h, hf, hs, hsn, by simp⟩
    | cons k ks ih =>
      intro hnd hks s hsound hf hsp hsn hload hw hfresh
      obtain ⟨hko, hkk, hkf⟩ := hks k (by simp)
      obtain ⟨hkn, hnd'⟩ := List.nodup_cons.mp hnd
      have hks' : ∀ x ∈ ks, x ∈ own ∧ x ∈ keys ∧ st.load x = cap x :=
        fun x hx => hks x (List.mem_cons_of_mem _ hx)
      rw [List.foldl_cons]
      by_cases hd : k ∈ s.dead
      · simp only [hd, if_true]
        obtain ⟨hst, h1, h2, h3, h4⟩ := ih hnd' hks' s hsound hf hsp hsn hload hw
          (fun x hx => hfresh x (List.mem_cons_of_mem _ hx))
        refine ⟨hst, h1, h2, h3, fun x hx => ?_⟩
        rcases List.mem_cons.mp hx with rfl | hx
        · exact Or.inl (hst.grows.dead hd)
        · exact h4 x hx
      · simp only [hd, if_false]
        have hvs : Step cap T own keys s ((s.visit k none).enqueue k) :=
          step_visit_enqueue hsound hf hkk (hfresh k (by simp)) hd (by rw [hload]; exact hkf) hko
        obtain ⟨hst, h1, h2, h3, h4⟩ := ih hnd' hks' ((s.visit k none).enqueue k) hvs.sound
          (by rw [enqueue_found]; exact hf) (by rw [enqueue_spent]; exact hsp)
          (by rw [enqueue_seen]; exact hsn) (hvs.grows.load.trans hload)
          (walked_visit_enqueue hw k none) (by
            intro x hx
            rw [enqueue_parentKeys, visit_parentKeys, List.mem_append, List.mem_singleton]
            rintro (h | rfl)
            · exact hfresh x (List.mem_cons_of_mem _ hx) h
            · exact hkn hx)
        refine ⟨hvs.trans hst (fun _ _ => ⟨by rw [enqueue_found]; exact hf, by rw [enqueue_spent]; exact hsp⟩),
          h1, h2, h3, fun x hx => ?_⟩
        rcases List.mem_cons.mp hx with rfl | hx
        · exact Or.inr (hst.grows.visited (by simp))
        · exact h4 x hx
  have hbase : Sound cap T own { st with parent := [], queue := [], seen := [], found := none } :=
    ⟨h, by simp [Search.parentKeys], by simp, by simp [Search.parentKeys], by simp, by simp⟩
  have hwbase : Walked none ({ st with parent := [], queue := [], seen := [], found := none } : Search K) := by
    intro x hx
    simp [Search.parentKeys] at hx
  obtain ⟨hst, h1, h2, h3, h4⟩ := loop own hnodup (fun k hk => ⟨hk, hown k hk⟩)
    { st with parent := [], queue := [], seen := [], found := none } hbase rfl hs rfl rfl hwbase
    (by simp [Search.parentKeys])
  have hpass := hst.passes h1 h2
  refine ⟨hst.sound, h1, h2, ?_, hst.walked h1 h2 none hwbase, ?_, h4, hst.grows.load, hst.grows.units,
    hst.grows.matched, hst.grows.dead⟩
  · intro t ht
    rw [start, h3] at ht
    exact absurd ht List.not_mem_nil
  · simpa [start, passes, Search.parentKeys] using hpass

/-- A search leaves the placement alone, and one that ends without a free key
inside the budget puts all keys of the row among the dead ones. -/
theorem search_spec (budget : Nat) {fuel : Nat} (hT : ∀ t ∈ T, ∀ x ∈ t, x ∈ keys) {st : MatchState K}
    (h : Inv cap T none st) (hs : st.spent = false) (hown : ∀ k ∈ own, k ∈ keys ∧ st.load k = cap k)
    (hnodup : own.Nodup) (hfuel : keys.card ≤ fuel) :
    Inv cap T none (search cap budget fuel own st).toMatchState ∧
    (∀ k, (search cap budget fuel own st).found = some k → Sound cap T own (search cap budget fuel own st)) ∧
    st.dead ⊆ (search cap budget fuel own st).dead ∧
    (search cap budget fuel own st).load = st.load ∧ (search cap budget fuel own st).units = st.units ∧
    (search cap budget fuel own st).matched = st.matched ∧
    ((search cap budget fuel own st).found = none → (search cap budget fuel own st).spent = false →
      ∀ k ∈ own, k ∈ (search cap budget fuel own st).dead) := by
  obtain ⟨hsound, hf, hsp, hseen, hw, hp, hcov, hl, hu, hm, hd⟩ := start_spec h hs hown hnodup
  obtain ⟨hws, hwg, hwend⟩ := walk_spec budget hT fuel (start own st) hsound hf hsp hseen hw (by omega)
  unfold search
  generalize walk cap budget fuel (start own st) = s at hws hwg hwend
  have hcov' : ∀ k ∈ own, Covered s k := fun k hk => (hcov k hk).mono hwg
  simp only
  split
  · rename_i hend
    have hfs : s.found = none ∧ s.spent = false := by
      cases hf' : s.found <;> cases hs' : s.spent <;> simp_all
    obtain ⟨hwalk, hqueue⟩ := hwend hfs.1 hfs.2
    have hfull : ∀ k ∈ s.parentKeys, s.load k = cap k :=
      fun k hk => hws.full k hk (by rw [hfs.1]; simp)
    have hclosed : ∀ k ∈ s.parentKeys, ∀ t, 0 < s.units t k → ∀ x ∈ t, Covered s x := by
      intro k hk t ht x hx
      rcases hwalk k hk with h1 | h1 | h1 | h1
      · rw [hqueue] at h1; exact absurd h1 List.not_mem_nil
      · exact Or.inl (hws.inv.dead_closed k h1 t ht x hx)
      · cases h1
      · exact h1 t ht x hx
    have hmem : ∀ x, Covered s x → x ∈ s.dead ∪ s.parentKeys.toFinset := by
      intro x hx
      rw [mem_union, List.mem_toFinset]
      exact hx
    refine ⟨⟨hws.inv.unit_mem, hws.inv.load_eq, hws.inv.load_le, hws.inv.movable_unit, ?_, ?_, ?_⟩, ?_,
      Finset.Subset.trans (Finset.Subset.trans hd hwg.dead) subset_union_left, hwg.load.trans hl,
        hwg.units.trans hu, hwg.matched.trans hm, fun _ _ k hk => hmem k (hcov' k hk)⟩
    · intro t k ht
      exact (hws.inv.stuck t k ht).imp_right (fun hd x hx hne => mem_union_left _ (hd x hx hne))
    · intro k hk
      rcases mem_union.mp hk with hk | hk
      · exact hws.inv.dead_full k hk
      · exact hfull k (List.mem_toFinset.mp hk)
    · intro k hk t ht x hx
      rcases mem_union.mp hk with hk | hk
      · exact mem_union_left _ (hws.inv.dead_closed k hk t ht x hx)
      · exact hmem x (hclosed k (List.mem_toFinset.mp hk) t ht x hx)
    · intro k hk
      change s.found = some k at hk
      rw [hfs.1] at hk
      cases hk
  · rename_i hend
    exact ⟨hws.inv, fun _ _ => hws, Finset.Subset.trans hd hwg.dead, hwg.load.trans hl,
      hwg.units.trans hu, hwg.matched.trans hm,
      fun hf' hs' => by simp [hf', hs'] at hend⟩

end RecognitionMatching
