import LcmX.StoreIdMapSurplus

/-!
# When the copies are spared

An earlier copy takes a later row when the counter of its surplus is too small: the
rows of another identity with the same cleaned form count as available. A generated
placeholder among the copies is passed over in the place of an earlier message.
-/
namespace Reconcile

open PyText

/-! ## Shared cleaned forms -/

/-- No row of another identity has the cleaned form of an identity. -/
def Unshared (rows : List CandidateRow) (f : ReplayIdentity) : Prop :=
  ∀ q ∈ rows, q.identity ≠ f → activeCleanupIdentity f = none ∨ q.cleanup ≠ activeCleanupIdentity f

/-- Only assistant rows share cleaned forms. -/
theorem unshared_user {rows : List CandidateRow} {f : ReplayIdentity} (h : f.role = "user") : Unshared rows f := by
  have hassistant : f.role ≠ "assistant" := by rw [h]; decide
  intro q _ hne
  right
  rw [activeCleanupIdentity_other hassistant]
  intro hclean
  have hrole := activeCleanupIdentity_role hclean
  rw [CandidateRow.cleanup, activeCleanupIdentity_other (hrole ▸ hassistant)] at hclean
  exact hne (Option.some.inj hclean)

/-- The rows with the cleaned form of an identity. -/
def cleanedCount (rows : List CandidateRow) (f : ReplayIdentity) : Nat :=
  (activeCleanupIdentity f).elim 0 (storedCleanupCount rows)

/-- Cleaning counts no more rows exactly where the cleaned form is not shared. -/
theorem cleanedCount_le_iff {rows : List CandidateRow} {f : ReplayIdentity} :
    cleanedCount rows f ≤ rowCount rows f ↔ Unshared rows f := by
  cases hclean : activeCleanupIdentity f with
  | none => simp [cleanedCount, Unshared, hclean]
  | some w =>
    have hown : (rows.filter fun r => r.identity = f).countP (fun r => r.cleanup = some w) = rowCount rows f := by
      rw [List.countP_filter, rowCount]
      apply List.countP_congr
      intro r _
      simp only [Bool.and_eq_true, decide_eq_true_eq]
      exact ⟨fun h => h.2, fun h => ⟨by rw [CandidateRow.cleanup, h, hclean], h⟩⟩
    have hsplit := List.countP_eq_countP_filter_add rows (fun r => r.cleanup = some w) fun r => r.identity = f
    rw [hown] at hsplit
    have hcount : cleanedCount rows f = rows.countP fun r => r.cleanup = some w := by
      simp [cleanedCount, hclean, storedCleanupCount]
    have hzero : cleanedCount rows f ≤ rowCount rows f ↔
        (rows.filter fun r => !decide (r.identity = f)).countP (fun r => r.cleanup = some w) = 0 := by omega
    rw [hzero, List.countP_filter, List.countP_eq_zero]
    constructor
    · intro h q hq hne
      right
      rw [hclean]
      intro hshared
      exact h q hq (by simp [hshared, hne])
    · intro h q hq hshared
      simp only [Bool.and_eq_true, decide_eq_true_eq, Bool.not_eq_true', decide_eq_false_iff_not] at hshared
      rcases h q hq hshared.2 with hnone | hne
      · rw [hclean] at hnone
        cases hnone
      · rw [hclean] at hne
        exact hne hshared.1

section

variable {rows : List CandidateRow} {messages : List Nat} {live : Nat → ReplayIdentity} {generated : Nat → Bool}
  {earlier copies : List Nat}

/-! ## Groups with one form -/

theorem length_le_one_of_eq {α : Type} {l : List α} (hnodup : l.Nodup) {a : α} (h : ∀ b ∈ l, b = a) : l.length ≤ 1 := by
  match l with
  | [] => exact Nat.zero_le _
  | [_] => exact Nat.le_refl _
  | b :: c :: l =>
    have hb := h b (by simp)
    have hc := h c (by simp)
    rw [hb, hc] at hnodup
    simp at hnodup

/-- Several forms are those of user rows. -/
theorem user_of_many (hrows : ∀ r ∈ rows, r.rewritten = none) {f : ReplayIdentity}
    (hmany : 1 < (groupForms rows (proofUserIdentity f)).length) : f.role = "user" := by
  by_contra hrole
  have hall : ∀ g ∈ groupForms rows (proofUserIdentity f), g = f := by
    intro g hg
    have hgroup := group_of_form hrows hg
    have hsame : g.role = f.role := by rw [← proofUserIdentity_role g, hgroup, proofUserIdentity_role]
    rwa [proofUserIdentity_other (hsame ▸ hrole), proofUserIdentity_other hrole] at hgroup
  have hnodup : (groupForms rows (proofUserIdentity f)).Nodup := List.nodup_dedup _
  have hle := length_le_one_of_eq hnodup hall
  omega

/-- In a group with one form no row has a second one. -/
theorem altCount_eq_zero (hrows : ∀ r ∈ rows, r.rewritten = none) {f : ReplayIdentity}
    (hone : ¬ 1 < (groupForms rows (proofUserIdentity f)).length) : (rows.countP fun r => r.alt = some f) = 0 := by
  rw [List.countP_eq_zero]
  intro r hr halt
  rw [decide_eq_true_eq, CandidateRow.alt_eq_some_iff (hrows r hr)] at halt
  obtain ⟨hf, hne⟩ := halt
  have hgroup : proofUserIdentity f = proofUserIdentity r.identity := by rw [hf, proofUserIdentity_idem]
  have hsub : [f, r.identity] ⊆ groupForms rows (proofUserIdentity f) := by
    intro g hg
    rw [mem_groupForms hrows, hgroup]
    refine ⟨r, hr, rfl, ?_⟩
    rcases List.mem_cons.mp hg with rfl | hg
    · exact .inr hf
    · exact .inl (List.mem_singleton.mp hg)
  have hle := (List.subperm_of_subset (by simpa using hne) hsub).length_le
  rw [List.length_cons, List.length_singleton] at hle
  omega

/-! ## The surplus -/

section

variable (hmessages : messages = earlier ++ copies) (hcopied : copies.map live = rows.map CandidateRow.identity)
include hmessages hcopied

theorem surplus_eq (f : ReplayIdentity) : surplus rows messages live f =
    earlierCount earlier live f + rowCount rows f - max
    (rowCount rows f + rows.countP fun r => r.alt = some f) (cleanedCount rows f) := by
  rw [surplus, activeIdentityCount_eq hmessages hcopied]
  rfl

theorem surplus_unshared {f : ReplayIdentity} (h : Unshared rows f) :
    surplus rows messages live f = earlierCount earlier live f - rows.countP fun r => r.alt = some f := by
  have hle := cleanedCount_le_iff.mpr h
  rw [surplus_eq hmessages hcopied]
  omega

end

/-! ## Generated placeholders -/

theorem isGeneratedSurplus_iff {m : Nat} {f : ReplayIdentity} (h : live m = f) :
    isGeneratedSurplus rows messages live generated m = true ↔
      m ∈ generatedSurplusOf rows messages live generated f := by
  rw [isGeneratedSurplus, decide_eq_true_eq, h]

theorem mem_generatedSurplusOf {m : Nat} {f : ReplayIdentity}
    (h : m ∈ generatedSurplusOf rows messages live generated f) :
    m ∈ messages ∧ generated m = true ∧ live m = f := by
  have hmem := List.mem_filter.mp (List.mem_of_mem_take h)
  simpa using hmem

/-- None is passed over as a generated placeholder when there is none, or no surplus. -/
theorem generatedSurplus_none_iff (f : ReplayIdentity) :
    (∀ m ∈ messages, live m = f → isGeneratedSurplus rows messages live generated m = false) ↔
      (∀ m ∈ messages, live m = f → generated m = false) ∨ surplus rows messages live f = 0 := by
  have hempty : (∀ m ∈ messages, live m = f → isGeneratedSurplus rows messages live generated m = false) ↔
      generatedSurplusOf rows messages live generated f = [] := by
    rw [List.eq_nil_iff_forall_not_mem]
    constructor
    · intro h m hm
      obtain ⟨hmem, -, hlive⟩ := mem_generatedSurplusOf hm
      exact absurd ((isGeneratedSurplus_iff hlive).mpr hm) (by rw [h m hmem hlive]; decide)
    · intro h m hmem hlive
      exact Bool.eq_false_of_not_eq_true fun hgen => h m ((isGeneratedSurplus_iff hlive).mp hgen)
  have hgenerated : (messages.filter fun m => generated m ∧ live m = f) = [] ↔
      ∀ m ∈ messages, live m = f → generated m = false := by
    rw [List.filter_eq_nil_iff]
    refine forall_congr' fun m => imp_congr_right fun _ => ?_
    cases generated m <;> simp
  rw [hempty, generatedSurplusOf, List.take_eq_nil_iff, hgenerated, or_comm]

theorem unskipped_add (f : ReplayIdentity) : unskipped rows messages live generated earlier f +
    earlier.countP (fun m => live m = f ∧ isGeneratedSurplus rows messages live generated m = true) =
      earlierCount earlier live f := by
  have hsplit := List.countP_eq_countP_filter_add earlier (fun m => live m = f) fun m =>
    isGeneratedSurplus rows messages live generated m = true
  rw [List.countP_filter, List.countP_filter] at hsplit
  rw [earlierCount, hsplit, Nat.add_comm, unskipped]
  congr 1
  · congr 1
    funext m
    simp
  · congr 1
    funext m
    simp

theorem unskipped_eq_iff (f : ReplayIdentity) :
    unskipped rows messages live generated earlier f = earlierCount earlier live f ↔
    ∀ m ∈ earlier, live m = f → isGeneratedSurplus rows messages live generated m = false := by
  have hadd := @unskipped_add rows messages live generated earlier f
  have hzero : unskipped rows messages live generated earlier f = earlierCount earlier live f ↔
      earlier.countP (fun m => live m = f ∧ isGeneratedSurplus rows messages live generated m = true) = 0 := by omega
  rw [hzero, List.countP_eq_zero]
  simp

/-! ## One identity -/

/-- The messages of an identity that are passed over are the earlier ones. -/
def Passes (rows : List CandidateRow) (messages : List Nat) (live : Nat → ReplayIdentity) (generated : Nat → Bool)
    (earlier copies : List Nat) (f : ReplayIdentity) : Prop :=
  (∀ m ∈ copies, live m = f → isGeneratedSurplus rows messages live generated m = false) ∧
    unskipped rows messages live generated earlier f = activeSurplusSkips rows messages live generated f

/-- The generated placeholders of an identity are surplus themselves, or too few to matter. -/
def GeneratedFits (rows : List CandidateRow) (live : Nat → ReplayIdentity) (generated : Nat → Bool)
    (earlier copies : List Nat)
    (f : ReplayIdentity) : Prop :=
  if 1 < (groupForms rows (proofUserIdentity f)).length then
    (∀ m ∈ earlier ++ copies, live m = f → generated m = false) ∨
      earlierCount earlier live f ≤ rows.countP fun r => r.alt = some f
  else
    (∀ m ∈ copies, live m = f → generated m = false) ∨ ∀ m ∈ earlier, live m = f → generated m = true

section

variable (hrows : ∀ r ∈ rows, r.rewritten = none) (hmessages : messages = earlier ++ copies)
  (hcopied : copies.map live = rows.map CandidateRow.identity) (hapart : ∀ m ∈ copies, m ∉ earlier)

include hmessages in
theorem generatedSurplusOf_eq (f : ReplayIdentity) : generatedSurplusOf rows messages live generated f =
    ((earlier.filter fun m => generated m ∧ live m = f) ++ copies.filter fun m => generated m ∧ live m = f).take
      (surplus rows messages live f) := by
  rw [generatedSurplusOf, hmessages, List.filter_append]

include hrows hmessages hcopied in
theorem passes_many {f : ReplayIdentity} (hf : f ∈ groupForms rows (proofUserIdentity f))
    (hmany : 1 < (groupForms rows (proofUserIdentity f)).length) :
    Passes rows messages live generated earlier copies f ↔
      Unshared rows f ∧ GeneratedFits rows live generated earlier copies f := by
  have hunshared : Unshared rows f := unshared_user (user_of_many hrows hmany)
  have hzero : surplus rows messages live f = 0 ↔
      earlierCount earlier live f ≤ rows.countP fun r => r.alt = some f := by
    rw [surplus_unshared hmessages hcopied hunshared]
    omega
  have hnone := @generatedSurplus_none_iff rows messages live generated f
  rw [hzero] at hnone
  rw [Passes, activeSurplusSkips_eq hrows hmessages hcopied hf, if_pos hmany, unskipped_eq_iff,
    GeneratedFits, if_pos hmany,
    ← hmessages, ← hnone, and_iff_right hunshared, hmessages]
  constructor
  · rintro ⟨hcopies, hearlier⟩ m hm
    exact (List.mem_append.mp hm).elim (hearlier m) (hcopies m)
  · exact fun h => ⟨fun m hm => h m (List.mem_append_right _ hm), fun m hm => h m (List.mem_append_left _ hm)⟩

include hrows hmessages hcopied hapart in
/-- An identity alone in its group passes over the earlier messages. -/
theorem passes_one {f : ReplayIdentity} (hf : f ∈ groupForms rows (proofUserIdentity f))
    (hone : ¬ 1 < (groupForms rows (proofUserIdentity f)).length) (hunshared : Unshared rows f)
    (hfits : GeneratedFits rows live generated earlier copies f) :
      Passes rows messages live generated earlier copies f := by
  rw [GeneratedFits, if_neg hone] at hfits
  have hsurplus : surplus rows messages live f = earlierCount earlier live f := by
    rw [surplus_unshared hmessages hcopied hunshared, altCount_eq_zero hrows hone, Nat.sub_zero]
  let own := earlier.filter fun m => generated m ∧ live m = f
  have hown : own.length ≤ earlierCount earlier live f := by
    rw [earlierCount, ← List.countP_eq_length_filter]
    exact List.countP_mono_left fun m _ h => by simp_all
  have hgenerated : generatedSurplusOf rows messages live generated f = own := by
    rw [generatedSurplusOf_eq hmessages, hsurplus]
    rcases hfits with hcopies | hearlier
    · have hempty : (copies.filter fun m => generated m ∧ live m = f) = [] := by
        rw [List.filter_eq_nil_iff]
        intro m hm h
        rw [decide_eq_true_eq] at h
        rw [hcopies m hm h.2] at h
        exact absurd h.1 (by decide)
      rw [hempty, List.append_nil]
      exact List.take_of_length_le hown
    · have hall : own.length = earlierCount earlier live f := by
        rw [earlierCount, ← List.countP_eq_length_filter]
        apply List.countP_congr
        intro m hm
        simp only [decide_eq_true_eq]
        exact ⟨fun h => h.2, fun h => ⟨hearlier m hm h, h⟩⟩
      rw [← hall]
      exact List.take_left' rfl
  have hskip : ∀ m, live m = f → (isGeneratedSurplus rows messages live generated m = true ↔ m ∈ own) := fun m hm => by
    rw [isGeneratedSurplus_iff hm, hgenerated]
  constructor
  · intro m hm hlive
    apply Bool.eq_false_of_not_eq_true
    rw [hskip m hlive]
    exact fun h => hapart m hm (List.mem_of_mem_filter h)
  · have hcount : earlier.countP
        (fun m => live m = f ∧ isGeneratedSurplus rows messages live generated m = true) = own.length := by
      rw [← List.countP_eq_length_filter]
      apply List.countP_congr
      intro m hm
      simp only [decide_eq_true_eq]
      constructor
      · rintro ⟨hlive, hgen⟩
        exact (by simpa using (List.mem_filter.mp ((hskip m hlive).mp hgen)).2)
      · rintro ⟨hgen, hlive⟩
        exact ⟨hlive, (hskip m hlive).mpr (List.mem_filter.mpr ⟨hm, by simp [hgen, hlive]⟩)⟩
    have hadd := @unskipped_add rows messages live generated earlier f
    rw [activeSurplusSkips_eq hrows hmessages hcopied hf, if_neg hone, surplusSkips, hsurplus, hgenerated]
    omega

include hrows hmessages hcopied in
/-- The other direction, for earlier messages that are different objects. -/
theorem fits_of_passes_one (hnodup : earlier.Nodup) {f : ReplayIdentity}
    (hf : f ∈ groupForms rows (proofUserIdentity f))
    (hone : ¬ 1 < (groupForms rows (proofUserIdentity f)).length) (hpos : 0 < earlierCount earlier live f)
    (h : Passes rows messages live generated earlier copies f) :
    Unshared rows f ∧ GeneratedFits rows live generated earlier copies f := by
  obtain ⟨hcopies, hskips⟩ := h
  rw [activeSurplusSkips_eq hrows hmessages hcopied hf, if_neg hone, surplusSkips] at hskips
  let own := earlier.filter fun m => generated m ∧ live m = f
  let theirs := copies.filter fun m => generated m ∧ live m = f
  have hgenerated : generatedSurplusOf rows messages live generated f = (own ++ theirs).take
      (surplus rows messages live f) :=
    generatedSurplusOf_eq hmessages f
  -- no copy is among the generated surplus
  have hfew : theirs = [] ∨ surplus rows messages live f ≤ own.length := by
    by_contra hno
    rw [not_or] at hno
    obtain ⟨m, more, hm⟩ := List.exists_cons_of_ne_nil hno.1
    have hmem : m ∈ (own ++ theirs).take (surplus rows messages live f) := by
      rw [List.mem_take_iff_getElem]
      refine ⟨own.length, by rw [hm]; simp; omega, ?_⟩
      simp [hm]
    have htheirs : m ∈ theirs := hm ▸ List.mem_cons_self
    obtain ⟨hcopy, hlive⟩ := List.mem_filter.mp htheirs
    rw [decide_eq_true_eq] at hlive
    have hgen := (isGeneratedSurplus_iff hlive.2).mpr (hgenerated ▸ hmem)
    rw [hcopies m hcopy hlive.2] at hgen
    cases hgen
  have htaken : generatedSurplusOf rows messages live generated f = own.take (surplus rows messages live f) := by
    rw [hgenerated]
    rcases hfew with hnone | hle
    · rw [hnone, List.append_nil]
    · exact List.take_append_of_le_length hle
  have hcount : earlier.countP (fun m => live m = f ∧ isGeneratedSurplus rows messages live generated m = true) =
      (generatedSurplusOf rows messages live generated f).length := by
    have hsub : (generatedSurplusOf rows messages live generated f).Sublist earlier := by
      rw [htaken]
      exact (List.take_sublist _ _).trans List.filter_sublist
    have hperm : (earlier.filter fun m => live m = f ∧ isGeneratedSurplus rows messages live generated m = true).Perm
        (generatedSurplusOf rows messages live generated f) := by
      rw [List.perm_ext_iff_of_nodup (hnodup.filter _) (hnodup.sublist hsub)]
      intro m
      simp only [List.mem_filter, decide_eq_true_eq]
      constructor
      · rintro ⟨-, hlive, hgen⟩
        exact (isGeneratedSurplus_iff hlive).mp hgen
      · intro hm
        have hlive := (mem_generatedSurplusOf hm).2.2
        exact ⟨hsub.subset hm, hlive, (isGeneratedSurplus_iff hlive).mpr hm⟩
    rw [List.countP_eq_length_filter, hperm.length_eq]
  have hadd := @unskipped_add rows messages live generated earlier f
  have htakenLength : (generatedSurplusOf rows messages live generated f).length ≤ surplus rows messages live f := by
    rw [htaken]
    exact List.length_take_le _ _
  have hsurplus : surplus rows messages live f = earlierCount earlier live f := by omega
  have hvalue := surplus_eq hmessages hcopied f
  rw [altCount_eq_zero hrows hone, hsurplus] at hvalue
  refine ⟨cleanedCount_le_iff.mp (by omega), ?_⟩
  rw [GeneratedFits, if_neg hone]
  rcases hfew with hnone | hle
  · left
    intro m hm hlive
    apply Bool.eq_false_of_not_eq_true
    intro hgen
    have hmem : m ∈ theirs := List.mem_filter.mpr ⟨hm, by simp [hgen, hlive]⟩
    rw [hnone] at hmem
    cases hmem
  · right
    rw [hsurplus, earlierCount, ← List.countP_eq_length_filter] at hle
    intro m hm hlive
    by_contra hgen
    have hlt : earlier.countP (fun m => generated m ∧ live m = f) < earlier.countP fun m => live m = f := by
      have hsplit := List.countP_eq_countP_filter_add earlier (fun m => live m = f) fun m => generated m
      have hpos : 0 < (earlier.filter fun m => !generated m).countP fun m => live m = f :=
        List.countP_pos_iff.mpr ⟨m, List.mem_filter.mpr ⟨hm, by simpa using hgen⟩, by simpa using hlive⟩
      have hsame : (earlier.filter fun m => generated m).countP (fun m => live m = f) =
          earlier.countP fun m => generated m ∧ live m = f := by
        rw [List.countP_filter]
        apply List.countP_congr
        intro m _
        rw [Bool.and_eq_true, decide_eq_true_eq, decide_eq_true_eq, and_comm]
      omega
    omega

end

end

end Reconcile
