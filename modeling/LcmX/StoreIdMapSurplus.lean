import LcmX.StoreIdMapCarry

/-!
# The surplus of earlier copies

The counters of a list that ends with one copy of every stored row. The skips of a
group with several forms are exactly the earlier messages; those of a single form
are the messages beyond the rows that have its identity, or its cleaned form.
-/
namespace Reconcile

open PyText

/-! ## Forms -/

theorem proofUserIdentity_idem (f : ReplayIdentity) :
    proofUserIdentity (proofUserIdentity f) = proofUserIdentity f := by
  by_cases hrole : f.role = "user"
  · have hstrip : proofUserIdentity f = { f with content := String.ofList (strip f.content.toList) } :=
      if_neg (not_not.mpr hrole)
    rw [hstrip, proofUserIdentity, if_neg (not_not.mpr hrole), String.toList_ofList, strip, strip, stripBy_idem]
  · have hself : proofUserIdentity f = f := if_pos hrole
    rw [hself, hself]

theorem proofUserIdentity_role (f : ReplayIdentity) : (proofUserIdentity f).role = f.role := by
  rw [proofUserIdentity]
  split <;> rfl

theorem proofUserIdentity_other {f : ReplayIdentity} (h : f.role ≠ "user") : proofUserIdentity f = f := if_pos h

namespace CandidateRow

variable {r : CandidateRow} (hr : r.rewritten = none)
include hr

theorem alt_eq_some_iff {f : ReplayIdentity} : r.alt = some f ↔ f = proofUserIdentity r.identity ∧ f ≠ r.identity := by
  have hraw : r.rawIdentity = r.identity := by rw [identity, hr]; rfl
  simp only [alt, hraw, ne_eq, not_true, if_false]
  split
  · next hne =>
    rw [Option.some.injEq]
    constructor
    · rintro rfl
      exact ⟨rfl, hne⟩
    · exact fun h => h.1.symm
  · next heq =>
    rw [not_not] at heq
    constructor
    · intro h
      cases h
    · rintro ⟨rfl, hne⟩
      exact absurd heq hne

theorem mem_forms {f : ReplayIdentity} : f ∈ r.forms ↔ f = r.identity ∨ f = proofUserIdentity r.identity := by
  rw [forms, List.mem_cons, Option.mem_toList, alt_eq_some_iff hr]
  by_cases h : f = r.identity
  · simp [h]
  · simp [h]

end CandidateRow

section

variable {rows : List CandidateRow} (hrows : ∀ r ∈ rows, r.rewritten = none)
include hrows

theorem mem_groupForms {γ f : ReplayIdentity} :
    f ∈ groupForms rows γ ↔ ∃ r ∈ rows, proofUserIdentity r.identity = γ ∧ (f = r.identity ∨ f = γ) := by
  simp only [groupForms, List.mem_dedup, storedForms, List.mem_flatMap, groupMembers,
    List.mem_filter, decide_eq_true_eq]
  constructor
  · rintro ⟨r, ⟨hr, rfl⟩, hf⟩
    exact ⟨r, hr, rfl, (CandidateRow.mem_forms (hrows r hr)).mp hf⟩
  · rintro ⟨r, hr, rfl, hf⟩
    exact ⟨r, ⟨hr, rfl⟩, (CandidateRow.mem_forms (hrows r hr)).mpr hf⟩

/-- A form belongs to one group only. -/
theorem group_of_form {γ f : ReplayIdentity} (h : f ∈ groupForms rows γ) : proofUserIdentity f = γ := by
  obtain ⟨r, -, rfl, rfl | rfl⟩ := (mem_groupForms hrows).mp h
  · rfl
  · exact proofUserIdentity_idem _

theorem identity_mem_groupForms {r : CandidateRow} (hr : r ∈ rows) :
    r.identity ∈ groupForms rows (proofUserIdentity r.identity) :=
  (mem_groupForms hrows).mpr ⟨r, hr, rfl, .inl rfl⟩

theorem mem_groups {f : ReplayIdentity} (h : f ∈ groupForms rows (proofUserIdentity f)) :
    proofUserIdentity f ∈ groups rows := by
  obtain ⟨r, hr, hgroup, -⟩ := (mem_groupForms hrows).mp h
  rw [groups, List.mem_eraseDups]
  exact List.mem_map.mpr ⟨r, hr, hgroup⟩

/-! ## Counting -/

omit hrows in
/-- One key counts one less. -/
theorem sum_map_succ {α : Type} [DecidableEq α] {keys : List α} (hnodup : keys.Nodup) {k : α}
    (hk : k ∈ keys) {a b : α → Nat}
    (hself : a k = b k + 1) (hother : ∀ j ∈ keys, j ≠ k → a j = b j) : (keys.map a).sum = (keys.map b).sum + 1 := by
  rw [← List.sum_map_erase a hk, ← List.sum_map_erase b hk, hself]
  have hrest : (keys.erase k).map a = (keys.erase k).map b :=
    List.map_congr_left fun j hj => hother j (List.mem_of_mem_erase hj) ((hnodup.mem_erase_iff.mp hj).1)
  rw [hrest]
  omega

omit hrows in
/-- Every item is counted once, under its own key. -/
theorem sum_countP_key {α β : Type} [DecidableEq α] {keys : List α} (hnodup : keys.Nodup) (key : β → α) (l : List β) :
    (∀ b ∈ l, key b ∈ keys) → (keys.map fun k => l.countP fun b => key b = k).sum = l.length := by
  induction l with
  | nil => simp
  | cons b l ih =>
    intro h
    have hself : (b :: l).countP (fun c => key c = key b) = l.countP (fun c => key c = key b) + 1 := by simp
    have hother : ∀ k ∈ keys, k ≠ key b → (b :: l).countP (fun c => key c = k) = l.countP (fun c => key c = k) := by
      intro k _ hk
      simp [Ne.symm hk]
    rw [sum_map_succ hnodup (h b List.mem_cons_self) hself hother,
      ih fun c hc => h c (List.mem_cons_of_mem _ hc), List.length_cons]

end

/-! ## The pass over a group -/

section

variable {live : Nat → ReplayIdentity} {forms : List ReplayIdentity}

/-- Without surplus the scan changes no skips. -/
theorem groupScan_done (l : List Nat) : ∀ s : GroupScan, s.surplus = 0 →
    (l.foldl (groupScanStep live forms) s).skips = s.skips := by
  induction l with
  | nil => exact fun _ _ => rfl
  | cons m l ih =>
    intro s hs
    have hstep : groupScanStep live forms s m =
        ⟨s.skips, s.surplus, Function.update s.seen (live m) (s.seen (live m) + 1)⟩ := by
      simp [groupScanStep, hs]
    rw [List.foldl_cons, hstep]
    exact ih _ hs

/-- A surplus of what the list still holds is spent by the list, and every form is skipped up to its last message. -/
theorem groupScan_spends (hnodup : forms.Nodup) (l : List Nat) : ∀ s : GroupScan,
    (∀ f ∈ forms, s.seen f ≤ s.skips f ∧ s.skips f ≤ s.seen f + l.countP fun m => live m = f) →
    s.surplus = (forms.map fun f => s.seen f + (l.countP fun m => live m = f) - s.skips f).sum →
    (l.foldl (groupScanStep live forms) s).surplus = 0 ∧
      (∀ f ∈ forms, (l.foldl (groupScanStep live forms) s).skips f = s.seen f + l.countP fun m => live m = f) ∧
      ∀ f, f ∉ forms → (l.foldl (groupScanStep live forms) s).skips f = s.skips f := by
  induction l with
  | nil =>
    intro s hbounds hsurplus
    simp only [List.countP_nil, Nat.add_zero] at hbounds hsurplus
    refine ⟨?_, fun f hf => ?_, fun _ _ => rfl⟩
    · rw [List.foldl_nil, hsurplus]
      apply List.sum_eq_zero
      intro n hn
      obtain ⟨f, hf, rfl⟩ := List.mem_map.mp hn
      have := (hbounds f hf).1
      omega
    · have := hbounds f hf
      simp only [List.foldl_nil, List.countP_nil]
      omega
  | cons m l ih =>
    intro s hbounds hsurplus
    have hcount : ∀ f, ((m :: l).countP fun m => live m = f) = (l.countP fun m => live m = f) +
        if live m = f then 1 else 0 := by
      intro f
      simp [List.countP_cons]
    simp only [hcount] at hbounds hsurplus ⊢
    let seen := Function.update s.seen (live m) (s.seen (live m) + 1)
    have hseen : ∀ f, seen f = s.seen f + if live m = f then 1 else 0 := by
      intro f
      by_cases hf : live m = f
      · simp [seen, hf]
      · simp [seen, hf, Ne.symm hf]
    rw [List.foldl_cons]
    by_cases htake : live m ∈ forms ∧ s.skips (live m) < seen (live m)
    · -- the first message of its form that is not skipped yet
      have hself := hbounds _ htake.1
      have hseenSelf := hseen (live m)
      rw [if_pos rfl] at hseenSelf hself
      have hskips : s.skips (live m) = s.seen (live m) := by have := htake.2; omega
      let skips := Function.update s.skips (live m) (seen (live m))
      have hskipsSelf : skips (live m) = s.seen (live m) + 1 := by simp [skips, hseenSelf]
      have hskipsOther : ∀ f, f ≠ live m → skips f = s.skips f := fun f hf => Function.update_of_ne hf ..
      have hsum : s.surplus = (forms.map fun f => seen f + (l.countP fun m => live m = f) - skips f).sum + 1 := by
        rw [hsurplus]
        apply sum_map_succ hnodup htake.1
        · rw [if_pos rfl, hskipsSelf, hseenSelf]
          omega
        · intro f hf hne
          rw [if_neg (Ne.symm hne), hseen, if_neg (Ne.symm hne), hskipsOther f hne]
          rfl
      have hstep : groupScanStep live forms s m = ⟨skips, s.surplus - 1, seen⟩ := by
        simp only [groupScanStep]
        exact if_pos ⟨htake.1, by omega, htake.2⟩
      rw [hstep]
      obtain ⟨hzero, hspent, hkept⟩ := ih ⟨skips, s.surplus - 1, seen⟩ (fun f hf => by
          by_cases hne : f = live m
          · rw [hne]
            simp only [hskipsSelf, hseenSelf]
            omega
          · have hb := hbounds f hf
            rw [if_neg (Ne.symm hne)] at hb
            simp only [hskipsOther f hne, hseen, if_neg (Ne.symm hne)]
            exact hb)
        (by simp only; omega)
      refine ⟨hzero, fun f hf => ?_, fun f hf => ?_⟩
      · have hnow := hspent f hf
        simp only [hseen] at hnow
        omega
      · rw [hkept f hf]
        exact hskipsOther f fun h => hf (h ▸ htake.1)
    · have hstep : groupScanStep live forms s m = ⟨s.skips, s.surplus, seen⟩ := by
        simp only [groupScanStep]
        exact if_neg fun h => htake ⟨h.1, h.2.2⟩
      rw [hstep]
      obtain ⟨hzero, hspent, hkept⟩ := ih ⟨s.skips, s.surplus, seen⟩ (fun f hf => by
          have hb := hbounds f hf
          simp only [hseen]
          by_cases hm : live m = f
          · have hle : seen f ≤ s.skips f := Nat.le_of_not_lt fun hlt => htake ⟨hm ▸ hf, hm ▸ hlt⟩
            rw [hseen, if_pos hm] at hle
            rw [if_pos hm] at hb ⊢
            omega
          · rw [if_neg hm] at hb ⊢
            omega)
        (by
          rw [hsurplus]
          congr 1
          apply List.map_congr_left
          intro f hf
          simp only [hseen]
          omega)
      refine ⟨hzero, fun f hf => ?_, hkept⟩
      have hnow := hspent f hf
      simp only [hseen] at hnow
      omega

end

/-! ## Skips -/

section

variable {rows : List CandidateRow} {messages : List Nat} {live : Nat → ReplayIdentity} {generated : Nat → Bool}
  {earlier copies : List Nat} (hrows : ∀ r ∈ rows, r.rewritten = none) (hmessages : messages = earlier ++ copies)
  (hcopied : copies.map live = rows.map CandidateRow.identity)

/-- The earlier messages of an identity. -/
def earlierCount (earlier : List Nat) (live : Nat → ReplayIdentity) (f : ReplayIdentity) : Nat :=
  earlier.countP fun m => live m = f

/-- The rows of an identity. -/
def rowCount (rows : List CandidateRow) (f : ReplayIdentity) : Nat := rows.countP fun r => r.identity = f

include hmessages hcopied in
theorem activeIdentityCount_eq (f : ReplayIdentity) :
    activeIdentityCount messages live f = earlierCount earlier live f + rowCount rows f := by
  have hcopies : copies.countP (fun m => live m = f) = rows.countP fun r => r.identity = f := by
    have hcount := congrArg (List.countP fun g => decide (g = f)) hcopied
    rwa [List.countP_map, List.countP_map] at hcount
  rw [activeIdentityCount, hmessages, List.countP_append, hcopies]
  rfl

include hmessages hcopied in
theorem surplus_le (f : ReplayIdentity) : surplus rows messages live f ≤ earlierCount earlier live f := by
  rw [surplus, activeIdentityCount_eq hmessages hcopied, storedAvailable, storedIdentityCount, rowCount]
  omega

include hmessages hcopied in
theorem surplusSkips_le (f : ReplayIdentity) :
    surplusSkips rows messages live generated f ≤ earlierCount earlier live f :=
  Nat.le_trans (Nat.sub_le _ _) (surplus_le hmessages hcopied f)

include hrows hmessages hcopied in
/-- A group with several forms skips its earlier messages; nothing else changes. -/
theorem groupPass_eq {skips : ReplayIdentity → Nat}
    (hskips : ∀ f, skips f ≤ earlierCount earlier live f) (γ f : ReplayIdentity) :
    groupPass rows messages live skips γ f =
      if f ∈ groupForms rows γ ∧ 1 < (groupForms rows γ).length then earlierCount earlier live f else skips f := by
  have hnodup : (groupForms rows γ).Nodup := List.nodup_dedup _
  have hmembers : ((groupForms rows γ).map fun f => rowCount rows f).sum = (groupMembers rows γ).length := by
    rw [← sum_countP_key hnodup CandidateRow.identity (groupMembers rows γ)]
    · congr 1
      apply List.map_congr_left
      intro f hf
      rw [rowCount, groupMembers, List.countP_filter]
      apply List.countP_congr
      intro r hr
      have hgroup := group_of_form hrows hf
      simp only [decide_eq_true_eq, Bool.and_eq_true]
      exact ⟨fun h => ⟨h, by rw [h, hgroup]⟩, fun h => h.1⟩
    · intro r hr
      obtain ⟨hr, hgroup⟩ := List.mem_filter.mp hr
      exact of_decide_eq_true hgroup ▸ identity_mem_groupForms hrows hr
  have hsurplus : ((groupForms rows γ).map fun f => activeIdentityCount messages live f - skips
    f).sum - (groupMembers rows γ).length =
      ((groupForms rows γ).map fun f => earlierCount earlier live f - skips f).sum := by
    have hsplit : ((groupForms rows γ).map fun f => activeIdentityCount messages live f - skips f) =
        (groupForms rows γ).map fun f => (earlierCount earlier live f - skips f) + rowCount rows f := by
      apply List.map_congr_left
      intro f _
      have := hskips f
      rw [activeIdentityCount_eq hmessages hcopied]
      omega
    rw [hsplit, List.sum_map_add, hmembers, Nat.add_sub_cancel]
  simp only [groupPass]
  rw [hsurplus]
  by_cases hmany : 1 < (groupForms rows γ).length
  · by_cases hpos : 0 < ((groupForms rows γ).map fun f => earlierCount earlier live f - skips f).sum
    · rw [if_pos ⟨hpos, hmany⟩, hmessages, List.foldl_append]
      obtain ⟨hzero, hspent, hkept⟩ := @groupScan_spends live _ hnodup earlier
        ⟨skips, ((groupForms rows γ).map fun f => earlierCount earlier live f - skips f).sum, fun _ => 0⟩
        (fun f _ => ⟨Nat.zero_le _, by simpa [earlierCount] using hskips f⟩) (by simp [earlierCount])
      rw [groupScan_done copies _ hzero]
      by_cases hf : f ∈ groupForms rows γ
      · rw [if_pos ⟨hf, hmany⟩, hspent f hf, Nat.zero_add]
        rfl
      · rw [if_neg fun h => hf h.1, hkept f hf]
    · rw [if_neg fun h => hpos h.1]
      by_cases hf : f ∈ groupForms rows γ
      · have hnone := List.sum_eq_zero_iff_forall_eq_nat.mp (Nat.eq_zero_of_not_pos hpos) _ (List.mem_map_of_mem hf)
        have := hskips f
        rw [if_pos ⟨hf, hmany⟩]
        omega
      · rw [if_neg fun h => hf h.1]
  · rw [if_neg fun h => hmany h.2, if_neg fun h => hmany h.2]

include hrows hmessages hcopied in
/-- The skips of a form of some row. -/
theorem activeSurplusSkips_eq {f : ReplayIdentity} (hf : f ∈ groupForms rows (proofUserIdentity f)) :
    activeSurplusSkips rows messages live generated f =
      if 1 < (groupForms rows (proofUserIdentity f)).length then earlierCount earlier live f
      else surplusSkips rows messages live generated f := by
  have hfold : ∀ (l : List ReplayIdentity) (skips : ReplayIdentity → Nat),
    (∀ g, skips g ≤ earlierCount earlier live g) →
      ∀ g, g ∈ groupForms rows (proofUserIdentity g) → (l.foldl (groupPass rows messages live) skips) g =
        if proofUserIdentity g ∈ l ∧ 1 < (groupForms rows (proofUserIdentity g)).length then earlierCount earlier live g
        else skips g := by
    intro l
    induction l with
    | nil => simp
    | cons γ l ih =>
      intro skips hskips g hg
      have hpass := groupPass_eq hrows hmessages hcopied hskips γ
      have hbound : ∀ g, groupPass rows messages live skips γ g ≤ earlierCount earlier live g := by
        intro g
        rw [hpass]
        split
        · exact Nat.le_refl _
        · exact hskips g
      rw [List.foldl_cons, ih _ hbound g hg, hpass]
      by_cases hγ : γ = proofUserIdentity g
      · by_cases hmany : 1 < (groupForms rows γ).length <;> simp [← hγ, hmany, hγ ▸ hg]
      · have hother : g ∉ groupForms rows γ := fun h => hγ (group_of_form hrows h).symm
        simp [hother, Ne.symm hγ]
  rw [activeSurplusSkips, hfold _ _ (surplusSkips_le hmessages hcopied) f hf]
  simp [mem_groups hrows hf]

end

end Reconcile
