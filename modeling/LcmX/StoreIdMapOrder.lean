import LcmX.StoreIdMap

/-!
# Store ids in message order

Every search starts behind the row of the last match, so the rows that are assigned
come in the order of the messages, and so do their store ids.
-/
namespace Reconcile

/-! ## The candidate rows -/

theorem lastOfEachId_subset (rows : List CandidateRow) : lastOfEachId rows ⊆ rows := by
  induction rows with
  | nil => exact List.Subset.refl _
  | cons r rows ih =>
    rw [lastOfEachId]
    split
    · exact fun q hq => List.mem_cons_of_mem _ (ih hq)
    · exact List.cons_subset_cons _ ih

theorem lastOfEachId_nodup (rows : List CandidateRow) :
    (lastOfEachId rows).Pairwise fun a b => a.storeId ≠ b.storeId := by
  induction rows with
  | nil => exact .nil
  | cons r rows ih =>
    rw [lastOfEachId]
    split
    · exact ih
    · next hnone =>
      refine .cons (fun q hq he => hnone ?_) ih
      exact List.any_eq_true.mpr ⟨q, lastOfEachId_subset _ hq, by simp [he]⟩

theorem candidateRows_subset {loaded : List CandidateRow} {excluded : List Nat} :
    candidateRows loaded excluded ⊆ loaded := by
  intro r hr
  rw [candidateRows, List.mem_insertionSort] at hr
  exact List.mem_of_mem_filter (lastOfEachId_subset _ hr)

/-- The candidates have different store ids and stand in their order. -/
theorem candidateRows_sorted (loaded : List CandidateRow) (excluded : List Nat) :
    (candidateRows loaded excluded).Pairwise fun a b => a.storeId < b.storeId := by
  have hle : (candidateRows loaded excluded).Pairwise fun a b => a.storeId ≤ b.storeId :=
    List.pairwise_insertionSort (fun a b : CandidateRow => a.storeId ≤ b.storeId) _
  have hne : (candidateRows loaded excluded).Pairwise fun a b => a.storeId ≠ b.storeId :=
    ((List.perm_insertionSort _ _).pairwise_iff fun h => Ne.symm h).mpr (lastOfEachId_nodup _)
  exact (hle.and hne).imp fun h => Nat.lt_of_le_of_ne h.1 h.2

/-! ## One message -/

theorem findRow_spec {rows : List CandidateRow} {p : CandidateRow → Bool} {start i : Nat}
    (h : findRow rows p start = some i) :
    start ≤ i ∧ i < rows.length := by
  obtain ⟨j, hj, rfl⟩ := Option.map_eq_some_iff.mp h
  have hlt := (List.findIdx?_eq_some_iff_getElem.mp hj).1
  rw [List.length_drop] at hlt
  omega

section

variable {rows : List CandidateRow} {messages : List Nat} {data : Nat → ActiveMessage} {live : Nat → ReplayIdentity}
  {generated : Nat → Bool}

theorem findMessageMatchIndex_spec {m start i : Nat} (h : findMessageMatchIndex rows data live m start = some i) :
    start ≤ i ∧ i < rows.length := by
  rw [findMessageMatchIndex, Option.or_eq_some_iff] at h
  rcases h with h | ⟨-, h⟩
  · obtain ⟨raw, -, hraw⟩ := Option.bind_eq_some_iff.mp h
    exact findRow_spec hraw
  · exact findRow_spec h

theorem placeholderMatch_spec {s : MapState} {rest : List Nat} {raw : List String} {i : Nat}
    (h : placeholderMatch rows messages data live generated s rest raw = some i) :
      s.storeIdx ≤ i ∧ i < rows.length := by
  simp only [placeholderMatch] at h
  split at h
  · exact findRow_spec h
  · obtain ⟨first, hfirst, hlast⟩ := Option.bind_eq_some_iff.mp h
    have hle := findRow_spec hfirst
    have hfound := List.find?_some hlast
    have hmem := List.mem_of_find?_eq_some hlast
    rw [List.mem_reverse, List.mem_range] at hmem
    rw [decide_eq_true_eq] at hfound
    exact ⟨Nat.le_trans hle.1 hfound.1, hmem⟩

@[simp] theorem assign_ids (s : MapState) (m i : Nat) :
    (s.assign rows m i).ids = Function.update s.ids m (rows[i]?.map CandidateRow.storeId) := rfl

@[simp] theorem assign_storeIdx (s : MapState) (m i : Nat) : (s.assign rows m i).storeIdx = i + 1 := rfl

@[simp] theorem assign_skips (s : MapState) (m i : Nat) : (s.assign rows m i).skips = s.skips := rfl

@[simp] theorem spend_ids (s : MapState) (f : ReplayIdentity) : (s.spend f).ids = s.ids := rfl

@[simp] theorem spend_storeIdx (s : MapState) (f : ReplayIdentity) : (s.spend f).storeIdx = s.storeIdx := rfl

@[simp] theorem spend_self (s : MapState) (f : ReplayIdentity) :
    (s.spend f).skips f = s.skips f - 1 := Function.update_self ..

theorem spend_other {f g : ReplayIdentity} (h : g ≠ f) (s : MapState) :
    (s.spend f).skips g = s.skips g := Function.update_of_ne h ..

/-- What a step does: a message gets a row that no earlier one got, or it gets none and keeps the entry it has. -/
theorem mapStep_cases (s : MapState) (m : Nat) (rest : List Nat) :
    (∃ i, s.storeIdx ≤ i ∧ i < rows.length ∧ mapStep rows messages data live generated s m rest = s.assign rows m i) ∨
    ((mapStep rows messages data live generated s m rest).ids = s.ids ∧
      (mapStep rows messages data live generated s m rest).storeIdx = s.storeIdx) := by
  have hplain : (∃ i, s.storeIdx ≤ i ∧ i < rows.length ∧
    plainStep rows messages data live generated s m = s.assign rows m i) ∨
      ((plainStep rows messages data live generated s m).ids = s.ids ∧
        (plainStep rows messages data live generated s m).storeIdx = s.storeIdx) := by
    rw [plainStep]
    split
    · exact .inr ⟨rfl, rfl⟩
    · split
      · exact .inr ⟨rfl, rfl⟩
      · split
        · next i hi => exact .inl ⟨i, (findMessageMatchIndex_spec hi).1, (findMessageMatchIndex_spec hi).2, rfl⟩
        · exact .inr ⟨rfl, rfl⟩
  cases hplaceholder : (data m).placeholder with
  | none =>
    simp only [mapStep, hplaceholder]
    exact hplain
  | some raw =>
    simp only [mapStep, hplaceholder]
    cases hmatch : placeholderMatch rows messages data live generated s rest raw with
    | none =>
      simp only [Option.elim_none]
      by_cases hknown : (s.ids m).isSome = true
      · exact .inr (by simp [hknown])
      · simpa [hknown] using hplain
    | some i =>
      have hi := placeholderMatch_spec hmatch
      exact .inl ⟨i, hi.1, hi.2, by simp [List.getElem?_eq_getElem hi.2]⟩

/-! ## The whole list -/

/-- The entries of a map stand in the order of some positions of their messages. -/
def InMessageOrder (messages : List Nat) (ids : Nat → Option Nat) : Prop :=
  ∃ position : Nat → Nat, ∀ m a, ids m = some a →
    messages[position m]? = some m ∧ ∀ m' b, ids m' = some b → position m < position m' → a < b

/-- Different messages have different entries. -/
theorem InMessageOrder.inj {messages : List Nat} {ids : Nat → Option Nat}
    (h : InMessageOrder messages ids) {m m' a : Nat}
    (hm : ids m = some a) (hm' : ids m' = some a) : m = m' := by
  obtain ⟨position, h⟩ := h
  obtain ⟨hat, hbelow⟩ := h m a hm
  obtain ⟨hat', hbelow'⟩ := h m' a hm'
  rcases Nat.lt_trichotomy (position m) (position m') with hlt | heq | hlt
  · exact absurd (hbelow m' a hm' hlt) (Nat.lt_irrefl a)
  · rw [heq, hat'] at hat
    exact (Option.some.inj hat).symm
  · exact absurd (hbelow' m a hm hlt) (Nat.lt_irrefl a)

/-- The entries are in order, and all of them are of rows in front of the next search. -/
structure Placed (rows : List CandidateRow) (done : List Nat) (s : MapState) (position : Nat → Nat) : Prop where
  message : ∀ m a, s.ids m = some a → done[position m]? = some m
  row : ∀ m a, s.ids m = some a → ∃ i < s.storeIdx, rows[i]?.map CandidateRow.storeId = some a
  order : ∀ m a m' b, s.ids m = some a → s.ids m' = some b → position m < position m' → a < b

/-- One step keeps the entries in order. -/
theorem placed_step (hsorted : rows.Pairwise fun a b => a.storeId < b.storeId) {done : List Nat}
    {s : MapState} {position : Nat → Nat}
    (h : Placed rows done s position) (m : Nat) (rest : List Nat) :
    ∃ position', Placed rows (done ++ [m]) (mapStep rows messages data live generated s m rest) position' := by
  have hold : ∀ m a, s.ids m = some a → position m < done.length := fun m a ha =>
    (List.getElem?_eq_some_iff.mp (h.message m a ha)).1
  have hkeep : ∀ m' a, s.ids m' = some a → (done ++ [m])[position m']? = some m' := fun m' a ha => by
    rw [List.getElem?_append_left (hold m' a ha)]
    exact h.message m' a ha
  rcases @mapStep_cases rows messages data live generated s m rest with
    ⟨i, hle, hlt, hstep⟩ | ⟨hids, hidx⟩
  · refine ⟨Function.update position m done.length, ?_⟩
    rw [hstep]
    have hrow : rows[i]?.map CandidateRow.storeId = some rows[i].storeId := by rw [List.getElem?_eq_getElem hlt]; rfl
    have hids : ∀ m' a, (s.assign rows m i).ids m' = some a → (m' = m ∧ a = rows[i].storeId) ∨
        (m' ≠ m ∧ s.ids m' = some a) := by
      intro m' a ha
      by_cases hm : m' = m
      · rw [hm, assign_ids, Function.update_self, hrow] at ha
        exact .inl ⟨hm, (Option.some.inj ha).symm⟩
      · rw [assign_ids, Function.update_of_ne hm] at ha
        exact .inr ⟨hm, ha⟩
    constructor
    · intro m' a ha
      rcases hids m' a ha with ⟨rfl, -⟩ | ⟨hm, ha⟩
      · rw [Function.update_self]
        simp
      · rw [Function.update_of_ne hm]
        exact hkeep m' a ha
    · intro m' a ha
      rcases hids m' a ha with ⟨-, rfl⟩ | ⟨-, ha⟩
      · exact ⟨i, Nat.lt_succ_self i, hrow⟩
      · obtain ⟨j, hj, hrow⟩ := h.row m' a ha
        exact ⟨j, Nat.lt_succ_of_lt (Nat.lt_of_lt_of_le hj hle), hrow⟩
    · intro m₁ a m₂ b ha hb hlt'
      rcases hids m₁ a ha with ⟨rfl, rfl⟩ | ⟨hm₁, hold₁⟩
      · -- nothing stands behind the message that was placed last
        rcases hids m₂ b hb with ⟨rfl, -⟩ | ⟨hm₂, hold₂⟩
        · exact absurd hlt' (Nat.lt_irrefl _)
        · rw [Function.update_self, Function.update_of_ne hm₂] at hlt'
          exact absurd (hold m₂ b hold₂) (by omega)
      · rcases hids m₂ b hb with ⟨-, rfl⟩ | ⟨hm₂, hold₂⟩
        · obtain ⟨j, hj, hrowj⟩ := h.row m₁ a hold₁
          obtain ⟨q, hq, rfl⟩ := Option.map_eq_some_iff.mp hrowj
          obtain ⟨hjlt, rfl⟩ := List.getElem?_eq_some_iff.mp hq
          exact List.pairwise_iff_getElem.mp hsorted j i hjlt hlt (Nat.lt_of_lt_of_le hj hle)
        · rw [Function.update_of_ne hm₁, Function.update_of_ne hm₂] at hlt'
          exact h.order m₁ a m₂ b hold₁ hold₂ hlt'
  · refine ⟨position, ?_⟩
    constructor
    · intro m' a ha
      exact hkeep m' a (hids ▸ ha)
    · intro m' a ha
      rw [hidx]
      exact h.row m' a (hids ▸ ha)
    · intro m₁ a m₂ b ha hb
      exact h.order m₁ a m₂ b (hids ▸ ha) (hids ▸ hb)

theorem placed_mapMessages (hsorted : rows.Pairwise fun a b => a.storeId < b.storeId) (todo : List Nat) :
    ∀ {done s position}, Placed rows done s position →
      ∃ position', Placed rows (done ++ todo) (mapMessages rows messages data live generated todo s) position' := by
  induction todo with
  | nil =>
    intro done s position h
    exact ⟨position, by simpa [mapMessages] using h⟩
  | cons m rest ih =>
    intro done s position h
    obtain ⟨next, hnext⟩ := @placed_step rows messages data live generated hsorted _ _ _ h m rest
    obtain ⟨last, hlast⟩ := ih hnext
    exact ⟨last, by simpa [mapMessages] using hlast⟩

theorem storeIdsOf_inMessageOrder (hsorted : rows.Pairwise fun a b => a.storeId < b.storeId) :
    InMessageOrder messages (storeIdsOf rows messages data live generated) := by
  have hstart : Placed rows [] ⟨fun _ => none, 0, activeSurplusSkips rows messages live generated⟩ fun _ => 0 :=
    ⟨by simp, by simp, by simp⟩
  obtain ⟨position, h⟩ := @placed_mapMessages rows messages data live generated hsorted messages _ _ _ hstart
  exact ⟨position, fun m a ha => ⟨h.message m a ha, fun m' b hb hlt => h.order m a m' b ha hb hlt⟩⟩

end

end Reconcile
