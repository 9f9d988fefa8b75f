import LcmX.StoreIdMapSpares

/-!
# Which copies steal a row

The map of an active list with older copies in front, and the exact condition under
which none of them has an entry. Two assistant rows that differ in their reasoning
only are enough to break it: an older copy of one takes the row of the other, and
every later message the row behind its own.
-/
namespace Reconcile

/-! ## Identities without a proof -/

section

variable {rows : List CandidateRow} {data : Nat → ActiveMessage} {appended : ReplayIdentity → Bool}

/-- Without proofs the live identities are the occurrences' own. -/
theorem liveIdentities_unproven (l : List Nat) : ∀ known : Nat → Option ReplayIdentity,
    (∀ m f, known m = some f → f = occurrenceIdentity rows data appended m none) →
    ∀ m, (m ∈ l ∨ (known m).isSome = true) →
      ((l.zip (List.replicate l.length none)).foldl
        (fun live p => noteIdentity data live p.1 (occurrenceIdentity rows data appended p.1 p.2)) known) m =
        some (occurrenceIdentity rows data appended m none) := by
  induction l with
  | nil =>
    intro known hknown m hm
    obtain ⟨f, hf⟩ := Option.isSome_iff_exists.mp (hm.resolve_left List.not_mem_nil)
    rw [List.zip_nil_left, List.foldl_nil, hf, hknown m f hf]
  | cons q l ih =>
    intro known hknown m hm
    have hnote : ∀ m, noteIdentity data known q (occurrenceIdentity rows data appended q none) m =
        if m = q then some (occurrenceIdentity rows data appended q none) else known m := by
      intro m
      cases hq : known q with
      | none =>
        simp only [noteIdentity, hq]
        by_cases hm : m = q
        · rw [if_pos hm, hm, Function.update_self]
        · rw [if_neg hm, Function.update_of_ne hm]
      | some f =>
        simp only [noteIdentity, hq, hknown q f hq, if_true]
        by_cases hm : m = q
        · rw [if_pos hm, hm, hq, hknown q f hq]
        · rw [if_neg hm]
    rw [List.length_cons, List.replicate_succ, List.zip_cons_cons, List.foldl_cons]
    apply ih
    · intro m f hf
      rw [hnote] at hf
      split at hf
      · next hmq => rw [hmq, Option.some.inj hf]
      · exact hknown m f hf
    · by_cases hmq : m = q
      · right
        rw [hnote, if_pos hmq]
        rfl
      · rw [hnote, if_neg hmq]
        exact hm.imp_left fun h => (List.mem_cons.mp h).resolve_left hmq

/-- Without a proof every message of the list has the identity of its own bytes. -/
theorem liveIdentity_unproven {messages : List Nat} {m : Nat} (hm : m ∈ messages) :
    liveIdentity rows data messages appended none m = occurrenceIdentity rows data appended m none := by
  have hlive := @liveIdentities_unproven rows data appended messages (fun _ => none) (by simp) m (.inl hm)
  rw [liveIdentity, liveIdentities]
  simp only [Option.map_none, Option.getD_none]
  rw [hlive, Option.getD_some]

end

/-! ## Carry-over -/

/-- An active list of earlier messages with one copy of every stored row behind them: no row is rewritten, no message
stands for an externalized payload, and no proof is in force. An earlier message has the identity of some row, or
is the copy of none, neither as it is nor cleaned. -/
structure CarryOver where
  loaded : List CandidateRow
  excluded : List Nat
  earlier : List Nat
  copies : List Nat
  data : Nat → ActiveMessage
  appended : ReplayIdentity → Bool
  generated : Nat → Bool
  plain_rows : ∀ r ∈ loaded, r.rewritten = none
  plain_messages : ∀ m ∈ earlier ++ copies, (data m).placeholder = none
  distinct : copies.Nodup
  apart : ∀ m ∈ copies, m ∉ earlier
  copied : copies.map (fun m => occurrenceIdentity (candidateRows loaded excluded) data appended m none) =
    (candidateRows loaded excluded).map CandidateRow.identity
  carried : ∀ m ∈ earlier, ∀ f, occurrenceIdentity (candidateRows loaded excluded) data appended m none = f →
    (∃ r ∈ candidateRows loaded excluded, r.identity = f) ∨
      ∀ r ∈ candidateRows loaded excluded, r.identity ≠ f ∧
        (activeCleanupIdentity f = none ∨ r.cleanup ≠ activeCleanupIdentity f)

namespace CarryOver

variable (c : CarryOver)

def rows : List CandidateRow := candidateRows c.loaded c.excluded

def messages : List Nat := c.earlier ++ c.copies

def identity (m : Nat) : ReplayIdentity := liveIdentity c.rows c.data c.messages c.appended none m

def ids : Nat → Option Nat := storeIdMapForMessages c.loaded c.excluded c.messages c.data c.appended none c.generated

/-- Every copy is mapped to its own row, and no earlier message is mapped. -/
def KeepsOwn : Prop :=
  (∀ k m : Nat, c.copies[k]? = some m → c.ids m = c.rows[k]?.map CandidateRow.storeId) ∧ ∀ m ∈ c.earlier, c.ids m = none

/-- For every stored identity that an earlier message has: no other row shares its cleaned form, and the generated
placeholders do not stand in for earlier messages. -/
def Spares : Prop :=
  ∀ r ∈ c.rows, (∃ m ∈ c.earlier, c.identity m = r.identity) →
    Unshared c.rows r.identity ∧ GeneratedFits c.rows c.identity c.generated c.earlier c.copies r.identity

theorem rows_plain : ∀ r ∈ c.rows, r.rewritten = none := fun r hr => c.plain_rows r (candidateRows_subset hr)

theorem identity_eq {m : Nat} (hm : m ∈ c.messages) :
    c.identity m = occurrenceIdentity c.rows c.data c.appended m none :=
  liveIdentity_unproven hm

theorem copies_identity : c.copies.map c.identity = c.rows.map CandidateRow.identity :=
  (List.map_congr_left fun _ hm => c.identity_eq (List.mem_append_right _ hm)).trans c.copied

/-- An earlier message that some row admits has a form of a row. -/
theorem form_of_related {m : Nat} (hm : m ∈ c.earlier) (h : Related c.rows (c.identity m)) :
    c.identity m ∈ groupForms c.rows (proofUserIdentity (c.identity m)) := by
  rcases c.carried m hm (c.identity m) (c.identity_eq (List.mem_append_left _ hm)).symm with ⟨r, hr, hself⟩ | hnone
  · rw [← hself]
    exact identity_mem_groupForms c.rows_plain hr
  · -- only the trimmed form of a row is left
    obtain ⟨r, hr, hadmits⟩ := h
    rw [CandidateRow.admits, decide_eq_true_eq] at hadmits
    rcases hadmits with hform | ⟨hsome, hclean⟩
    · rcases (CandidateRow.mem_forms (c.rows_plain r hr)).mp hform with hself | htrimmed
      · exact absurd hself.symm (hnone r hr).1
      · have hgroup : proofUserIdentity (c.identity m) = proofUserIdentity r.identity := by
          rw [htrimmed, proofUserIdentity_idem]
        rw [mem_groupForms c.rows_plain]
        exact ⟨r, hr, hgroup.symm, .inr (by rw [hgroup, htrimmed])⟩
    · rcases (hnone r hr).2 with hnothing | hother
      · rw [hnothing] at hsome
        cases hsome
      · exact absurd hclean hother

/-- The skips of the identities of the rows decide. -/
theorem keepsOwn_iff_passes : c.KeepsOwn ↔
    ∀ r ∈ c.rows, Passes c.rows c.messages c.identity c.generated c.earlier c.copies r.identity := by
  have hmessages : c.messages = c.earlier ++ c.copies := rfl
  have hiff := @storeIdsOf_carry_iff c.rows c.messages c.data c.identity c.generated _ _ hmessages
    c.plain_messages c.distinct
    c.apart c.copies_identity
  have hkeeps : c.KeepsOwn ↔ _ := hiff
  rw [hkeeps]
  constructor
  · rintro ⟨hfirst, hgen, hlast⟩ r hr
    have hrelated : Related c.rows r.identity := ⟨r, hr, admits_self r⟩
    exact ⟨fun m hm _ => hgen m hm, Nat.le_antisymm (hfirst _ hrelated) (hlast r hr)⟩
  · intro h
    refine ⟨fun f hf => ?_, fun m hm => ?_, fun r hr => Nat.le_of_eq (h r hr).2.symm⟩
    · rcases Nat.eq_zero_or_pos (unskipped c.rows c.messages c.identity c.generated c.earlier f) with hzero | hpos
      · rw [hzero]
        exact Nat.zero_le _
      · obtain ⟨m, hm, hlive⟩ := List.countP_pos_iff.mp hpos
        rw [decide_eq_true_eq] at hlive
        have hform := c.form_of_related hm (hlive.1 ▸ hf)
        rw [hlive.1] at hform
        obtain ⟨r, hr, hgroup, hself | htrimmed⟩ := (mem_groupForms c.rows_plain).mp hform
        · rw [hself]
          exact Nat.le_of_eq (h r hr).2
        · by_cases hmany : 1 < (groupForms c.rows (proofUserIdentity f)).length
          · rw [activeSurplusSkips_eq c.rows_plain hmessages c.copies_identity hform, if_pos hmany]
            refine List.countP_mono_left fun m _ hm => ?_
            rw [decide_eq_true_eq] at hm ⊢
            exact hm.1
          · -- the only form of the group is the identity of its row
            have hself : f = r.identity := by
              by_contra hne
              have halt := altCount_eq_zero c.rows_plain hmany
              rw [List.countP_eq_zero] at halt
              refine halt r hr ?_
              rw [decide_eq_true_eq, CandidateRow.alt_eq_some_iff (c.rows_plain r hr), hgroup]
              exact ⟨htrimmed, hne⟩
            rw [hself]
            exact Nat.le_of_eq (h r hr).2
    · obtain ⟨r, hr, hlive⟩ := List.mem_map.mp (c.copies_identity ▸ List.mem_map_of_mem hm :
        c.identity m ∈ c.rows.map CandidateRow.identity)
      exact (h r hr).1 m hm hlive.symm

/-- Without earlier messages of an identity there is nothing to pass over. -/
theorem passes_of_none {r : CandidateRow} (hr : r ∈ c.rows) (hnone : earlierCount c.earlier c.identity r.identity = 0) :
    Passes c.rows c.messages c.identity c.generated c.earlier c.copies r.identity := by
  have hmessages : c.messages = c.earlier ++ c.copies := rfl
  have hsurplus : surplus c.rows c.messages c.identity r.identity = 0 := by
    have hle := surplus_le hmessages c.copies_identity r.identity
    omega
  have hgen := (@generatedSurplus_none_iff c.rows c.messages c.identity c.generated r.identity).mpr (.inr hsurplus)
  refine ⟨fun m hm => hgen m (List.mem_append_right _ hm), ?_⟩
  have hunskipped := (unskipped_eq_iff r.identity).mpr fun m hm => hgen m (List.mem_append_left _ hm)
  rw [hunskipped, activeSurplusSkips_eq c.rows_plain hmessages c.copies_identity
    (identity_mem_groupForms c.rows_plain hr)]
  split
  · rfl
  · rw [hnone, surplusSkips, hsurplus, Nat.zero_sub]

theorem keepsOwn_of_spares (h : c.Spares) : c.KeepsOwn := by
  rw [keepsOwn_iff_passes]
  intro r hr
  rcases Nat.eq_zero_or_pos (earlierCount c.earlier c.identity r.identity) with hnone | hpos
  · exact c.passes_of_none hr hnone
  · obtain ⟨m, hm, hlive⟩ := List.countP_pos_iff.mp hpos
    obtain ⟨hunshared, hfits⟩ := h r hr ⟨m, hm, of_decide_eq_true hlive⟩
    have hform := identity_mem_groupForms c.rows_plain hr
    by_cases hmany : 1 < (groupForms c.rows (proofUserIdentity r.identity)).length
    · exact (passes_many c.rows_plain rfl c.copies_identity hform hmany).mpr ⟨hunshared, hfits⟩
    · exact passes_one c.rows_plain rfl c.copies_identity c.apart hform hmany hunshared hfits

theorem spares_of_keepsOwn (hnodup : c.earlier.Nodup) (h : c.KeepsOwn) : c.Spares := by
  rw [keepsOwn_iff_passes] at h
  rintro r hr ⟨m, hm, hlive⟩
  have hform := identity_mem_groupForms c.rows_plain hr
  by_cases hmany : 1 < (groupForms c.rows (proofUserIdentity r.identity)).length
  · exact (passes_many c.rows_plain rfl c.copies_identity hform hmany).mp (h r hr)
  · have hpos : 0 < earlierCount c.earlier c.identity r.identity :=
      List.countP_pos_iff.mpr ⟨m, hm, decide_eq_true hlive⟩
    exact fits_of_passes_one c.rows_plain rfl c.copies_identity hnodup hform hmany hpos (h r hr)

end CarryOver

/-- The copies keep their rows where the surplus of the earlier messages is counted right: always in that case, and
only in that case when the earlier messages are different objects. In every run the store ids are distinct and
increase in message order. -/
theorem storeIdMap_keepsOwn (c : CarryOver) : (c.Spares → c.KeepsOwn) ∧ (c.earlier.Nodup → c.KeepsOwn → c.Spares) ∧
    ∀ loaded excluded messages data appended occurrences generated,
      InMessageOrder messages (storeIdMapForMessages loaded excluded messages data appended occurrences generated) ∧
      ∀ m m' a, storeIdMapForMessages loaded excluded messages data appended occurrences generated m = some a →
        storeIdMapForMessages loaded excluded messages data appended occurrences generated m' = some a → m = m' := by
  refine ⟨c.keepsOwn_of_spares, c.spares_of_keepsOwn, ?_⟩
  intro loaded excluded messages data appended occurrences generated
  have horder : InMessageOrder messages
      (storeIdMapForMessages loaded excluded messages data appended occurrences generated) :=
    storeIdsOf_inMessageOrder (candidateRows_sorted loaded excluded)
  exact ⟨horder, fun m m' a => horder.inj⟩

def spokenIdentity : ReplayIdentity := ⟨"assistant", "hi", "", "", ""⟩

def reasonedIdentity : ReplayIdentity := ⟨"assistant", "<think>x</think>hi", "", "", ""⟩

/-- An earlier copy of the only row. -/
def singleCarryOver : CarryOver where
  loaded := [⟨2, spokenIdentity, none, []⟩]
  excluded := []
  earlier := [0]
  copies := [1]
  data := fun _ => ⟨none, spokenIdentity, spokenIdentity, spokenIdentity, none⟩
  appended := fun _ => false
  generated := fun _ => false
  plain_rows := by decide
  plain_messages := by decide
  distinct := by decide
  apart := by decide
  copied := by decide +kernel
  carried := by
    rintro m hm f rfl
    obtain rfl := List.mem_singleton.mp hm
    exact .inl ⟨⟨2, spokenIdentity, none, []⟩, by decide +kernel, by decide +kernel⟩

theorem storeIdMap_keepsOwn_single : singleCarryOver.KeepsOwn := by
  have hrows : singleCarryOver.rows = [⟨2, spokenIdentity, none, []⟩] := by decide +kernel
  apply (storeIdMap_keepsOwn singleCarryOver).1
  intro r hr _
  rw [hrows, List.mem_singleton] at hr
  subst hr
  constructor
  · intro q hq hne
    rw [hrows, List.mem_singleton] at hq
    exact absurd (by rw [hq]) hne
  · rw [GeneratedFits]
    split <;> exact .inl fun _ _ _ => rfl

/-! ## Two rows with one cleaned form -/

def sharedRows : List CandidateRow := [⟨1, reasonedIdentity, none, []⟩, ⟨2, spokenIdentity, none, []⟩]

/-- An earlier copy of the second row, and one copy of each. -/
def sharedMessage (m : Nat) : ActiveMessage :=
  let identity := if m = 1 then reasonedIdentity else spokenIdentity
  ⟨none, identity, identity, identity, none⟩

theorem sharedRows_eq : candidateRows sharedRows [] = sharedRows := by decide +kernel

def sharedCarryOver : CarryOver where
  loaded := sharedRows
  excluded := []
  earlier := [0]
  copies := [1, 2]
  data := sharedMessage
  appended := fun _ => false
  generated := fun _ => false
  plain_rows := by decide
  plain_messages := by decide
  distinct := by decide
  apart := by decide
  copied := by
    rw [sharedRows_eq]
    decide +kernel
  carried := by
    rw [sharedRows_eq]
    intro m hm f hf
    left
    rw [List.mem_singleton.mp hm] at hf
    exact ⟨⟨2, spokenIdentity, none, []⟩, by decide +kernel, by rw [← hf]; decide +kernel⟩

/-- The earlier message takes the first row, and the copies the rows behind their own. -/
theorem storeIdMap_steals : sharedCarryOver.ids 0 = some 1 ∧ sharedCarryOver.ids 1 = some 2 ∧
    sharedCarryOver.ids 2 = none ∧
    ¬ sharedCarryOver.KeepsOwn := by
  have hids : sharedCarryOver.ids 0 = some 1 ∧ sharedCarryOver.ids 1 = some 2 ∧
      sharedCarryOver.ids 2 = none := by decide +kernel
  refine ⟨hids.1, hids.2.1, hids.2.2, fun hkeeps => ?_⟩
  have hnone := hkeeps.2 0 (List.mem_singleton.mpr rfl)
  rw [hids.1] at hnone
  cases hnone

end Reconcile
