import LcmX.StoreIdMapOrder

/-!
# Carry-over copies

An active list that ends with one copy of every stored row may hold older copies in
front of them. The copies get their own rows exactly when the older ones are all
passed over, and no copy is.
-/
namespace Reconcile

section

variable {rows : List CandidateRow} {messages : List Nat} {data : Nat → ActiveMessage} {live : Nat → ReplayIdentity}
  {generated : Nat → Bool}

/-! ## Searching -/

theorem findRow_none {p : CandidateRow → Bool} (h : ∀ r ∈ rows, p r = false) (start : Nat) :
    findRow rows p start = none := by
  rw [findRow, Option.map_eq_none_iff, List.findIdx?_eq_none_iff]
  exact fun r hr => h r (List.mem_of_mem_drop hr)

theorem findRow_head {p : CandidateRow → Bool} {r : CandidateRow} {k : Nat}
    (hrow : rows[k]? = some r) (hp : p r = true) :
    findRow rows p k = some k := by
  obtain ⟨hk, rfl⟩ := List.getElem?_eq_some_iff.mp hrow
  rw [findRow, List.drop_eq_getElem_cons hk, List.findIdx?_cons, if_pos hp]
  simp

theorem findRow_isSome {p : CandidateRow → Bool} (h : ∃ r ∈ rows, p r = true) : (findRow rows p 0).isSome = true := by
  rw [findRow, Option.isSome_map, List.findIdx?_isSome, List.drop_zero, List.any_eq_true]
  exact h

/-- Some stored row can be the source of a message with an identity. -/
def Related (rows : List CandidateRow) (f : ReplayIdentity) : Prop := ∃ r ∈ rows, r.admits f = true

/-- How many messages of an identity are no generated surplus. -/
def unskipped (rows : List CandidateRow) (messages : List Nat) (live : Nat → ReplayIdentity) (generated : Nat → Bool)
    (l : List Nat) (f : ReplayIdentity) : Nat :=
  l.countP fun m => live m = f ∧ isGeneratedSurplus rows messages live generated m = false

theorem unskipped_cons_of_skipped {m : Nat}
    (h : isGeneratedSurplus rows messages live generated m = true) (l : List Nat)
    (f : ReplayIdentity) : unskipped rows messages live generated (m :: l) f =
      unskipped rows messages live generated l f := by
  simp [unskipped, h]

theorem unskipped_cons_self {m : Nat} (h : isGeneratedSurplus rows messages live generated m = false) (l : List Nat) :
    unskipped rows messages live generated (m :: l)
    (live m) = unskipped rows messages live generated l (live m) + 1 := by
  simp [unskipped, h]

theorem unskipped_cons_other {m : Nat} {f : ReplayIdentity} (h : live m ≠ f) (l : List Nat) :
    unskipped rows messages live generated (m :: l) f = unskipped rows messages live generated l f := by
  simp [unskipped, h]

/-! ## One plain message -/

theorem mapStep_plain {m : Nat} (h : (data m).placeholder = none) (s : MapState) (rest : List Nat) :
    mapStep rows messages data live generated s m rest = plainStep rows messages data live generated s m := by
  rw [mapStep, h]

theorem plainStep_skipped {m : Nat} (h : isGeneratedSurplus rows messages live generated m = true) (s : MapState) :
    plainStep rows messages data live generated s m = s := if_pos h

theorem plainStep_surplus {m : Nat} {s : MapState} (h : isGeneratedSurplus rows messages live generated m = false)
    (hskips : 0 < s.skips (live m)) :
    plainStep rows messages data live generated s m = s.spend (live m) := by
  rw [plainStep, if_neg (by rw [h]; decide), if_pos hskips]

theorem plainStep_search {m : Nat} {s : MapState} (hplain : (data m).placeholder = none)
    (h : isGeneratedSurplus rows messages live generated m = false) (hskips : s.skips (live m) = 0) :
    plainStep rows messages data live generated s m =
      match findRow rows (·.admits (live m)) s.storeIdx with
      | some i => s.assign rows m i
      | none => s := by
  rw [plainStep, if_neg (by rw [h]; decide), if_neg (by omega), findMessageMatchIndex, hplain]
  rfl

theorem plainStep_unrelated {m : Nat} {s : MapState} (hplain : (data m).placeholder = none)
    (h : isGeneratedSurplus rows messages live generated m = false) (hskips : s.skips (live m) = 0)
    (hrelated : ¬ Related rows (live m)) : plainStep rows messages data live generated s m = s := by
  have hnone : findRow rows (fun r => r.admits (live m)) s.storeIdx = none := by
    apply findRow_none
    intro r hr
    cases hadmits : r.admits (live m) with
    | false => rfl
    | true => exact absurd ⟨r, hr, hadmits⟩ hrelated
  rw [plainStep_search hplain h hskips, hnone]

/-! ## Runs -/

/-- A message keeps having an entry. -/
theorem mapMessages_isSome {m : Nat} (l : List Nat) : ∀ s : MapState, (s.ids m).isSome = true →
    ((mapMessages rows messages data live generated l s).ids m).isSome = true := by
  induction l with
  | nil => exact fun s h => h
  | cons m' l ih =>
    intro s h
    rw [mapMessages]
    apply ih
    rcases @mapStep_cases rows messages data live generated s m' l with ⟨i, -, hlt, hstep⟩ | ⟨hids, -⟩
    · rw [hstep, assign_ids]
      by_cases hm : m = m'
      · rw [hm, Function.update_self, List.getElem?_eq_getElem hlt]
        rfl
      · rwa [Function.update_of_ne hm]
    · rwa [hids]

/-- The entry of a message is not touched by the others. -/
theorem mapMessages_other {m : Nat} (l : List Nat) : ∀ s : MapState, m ∉ l →
    (mapMessages rows messages data live generated l s).ids m = s.ids m := by
  induction l with
  | nil => exact fun s _ => rfl
  | cons m' l ih =>
    intro s hm
    rw [List.mem_cons, not_or] at hm
    rw [mapMessages, ih _ hm.2]
    rcases @mapStep_cases rows messages data live generated s m' l with ⟨i, -, -, hstep⟩ | ⟨hids, -⟩
    · rw [hstep, assign_ids, Function.update_of_ne hm.1]
    · rw [hids]

theorem mapMessages_append (u v : List Nat) : ∀ s : MapState, (∀ m ∈ u, (data m).placeholder = none) →
    mapMessages rows messages data live generated (u ++ v) s =
      mapMessages rows messages data live generated v (mapMessages rows messages data live generated u s) := by
  induction u with
  | nil => exact fun s _ => rfl
  | cons m u ih =>
    intro s hplain
    rw [List.cons_append, mapMessages, mapMessages, mapStep_plain (hplain m List.mem_cons_self),
      mapStep_plain (hplain m List.mem_cons_self), ih _ fun q hq => hplain q (List.mem_cons_of_mem _ hq)]

/-- The skips of an identity are spent by its own messages only. -/
theorem mapMessages_skips {f : ReplayIdentity} (l : List Nat) : ∀ s : MapState, (∀ m ∈ l, (data m).placeholder = none) →
    (∀ m ∈ l, live m ≠ f) → (mapMessages rows messages data live generated l s).skips f = s.skips f := by
  induction l with
  | nil => exact fun s _ _ => rfl
  | cons m l ih =>
    intro s hplain hne
    rw [mapMessages, mapStep_plain (hplain m List.mem_cons_self),
      ih _ (fun q hq => hplain q (List.mem_cons_of_mem _ hq)) fun q hq => hne q (List.mem_cons_of_mem _ hq), plainStep]
    split
    · rfl
    · split
      · exact spend_other (hne m List.mem_cons_self).symm s
      · split <;> rfl

/-- When the skips suffice, messages are passed over and spend them. -/
theorem mapMessages_pass (l : List Nat) : ∀ s : MapState, (∀ m ∈ l, (data m).placeholder = none) →
    (∀ f, Related rows f → unskipped rows messages live generated l f ≤ s.skips f) →
    (mapMessages rows messages data live generated l s).ids = s.ids ∧
    (mapMessages rows messages data live generated l s).storeIdx = s.storeIdx ∧
    ∀ f, (mapMessages rows messages data live generated l s).skips f =
      s.skips f - unskipped rows messages live generated l f := by
  induction l with
  | nil => exact fun s _ _ => ⟨rfl, rfl, fun _ => rfl⟩
  | cons m l ih =>
    intro s hplain hskips
    have hrest : ∀ q ∈ l, (data q).placeholder = none := fun q hq => hplain q (List.mem_cons_of_mem _ hq)
    rw [mapMessages, mapStep_plain (hplain m List.mem_cons_self)]
    cases hgen : isGeneratedSurplus rows messages live generated m with
    | true =>
      rw [plainStep_skipped hgen]
      simp only [unskipped_cons_of_skipped hgen] at hskips ⊢
      exact ih s hrest hskips
    | false =>
      by_cases hzero : s.skips (live m) = 0
      · have hrelated : ¬ Related rows (live m) := by
          intro h
          have hle := hskips _ h
          rw [unskipped_cons_self hgen] at hle
          omega
        rw [plainStep_unrelated (hplain m List.mem_cons_self) hgen hzero hrelated]
        obtain ⟨hids, hidx, hspent⟩ := ih s hrest fun f hf => by
          have hne : live m ≠ f := fun h => hrelated (h ▸ hf)
          rw [← unskipped_cons_other hne]
          exact hskips f hf
        refine ⟨hids, hidx, fun f => ?_⟩
        rw [hspent]
        by_cases hf : live m = f
        · rw [← hf, hzero, Nat.zero_sub, Nat.zero_sub]
        · rw [unskipped_cons_other hf]
      · rw [plainStep_surplus hgen (Nat.pos_of_ne_zero hzero)]
        obtain ⟨hids, hidx, hspent⟩ := ih (s.spend (live m)) hrest
          fun f hf => by
            have hle := hskips f hf
            by_cases hm : live m = f
            · subst hm
              rw [unskipped_cons_self hgen] at hle
              rw [spend_self]
              omega
            · rw [unskipped_cons_other hm] at hle
              rwa [spend_other (Ne.symm hm)]
        refine ⟨hids, hidx, fun f => ?_⟩
        rw [hspent]
        by_cases hf : live m = f
        · subst hf
          rw [unskipped_cons_self hgen, spend_self]
          omega
        · rw [unskipped_cons_other hf, spend_other (Ne.symm hf)]

/-- When they do not, one of the messages takes a row. -/
theorem mapMessages_take (l : List Nat) : ∀ s : MapState, s.storeIdx = 0 → (∀ m ∈ l, (data m).placeholder = none) →
    (∃ f, Related rows f ∧ s.skips f < unskipped rows messages live generated l f) →
    ∃ m ∈ l, ((mapMessages rows messages data live generated l s).ids m).isSome = true := by
  induction l with
  | nil =>
    rintro s - - ⟨f, -, hlt⟩
    exact absurd hlt (Nat.not_lt_zero _)
  | cons m l ih =>
    rintro s hidx hplain ⟨f, hf, hlt⟩
    have hrest : ∀ q ∈ l, (data q).placeholder = none := fun q hq => hplain q (List.mem_cons_of_mem _ hq)
    have hstep : ∀ t : MapState, t.storeIdx = 0 → t.skips f < unskipped rows messages live generated l f →
        ∃ q ∈ m :: l, ((mapMessages rows messages data live generated l t).ids q).isSome = true := fun t ht hlt =>
      (ih t ht hrest ⟨f, hf, hlt⟩).imp fun q hq => ⟨List.mem_cons_of_mem _ hq.1, hq.2⟩
    rw [mapMessages, mapStep_plain (hplain m List.mem_cons_self)]
    cases hgen : isGeneratedSurplus rows messages live generated m with
    | true =>
      rw [plainStep_skipped hgen]
      rw [unskipped_cons_of_skipped hgen] at hlt
      exact hstep s hidx hlt
    | false =>
      by_cases hzero : s.skips (live m) = 0
      · by_cases hrelated : Related rows (live m)
        · -- the first row that admits the message is taken
          obtain ⟨i, hi⟩ := Option.isSome_iff_exists.mp (findRow_isSome hrelated)
          have hlt := (findRow_spec hi).2
          rw [plainStep_search (hplain m List.mem_cons_self) hgen hzero, hidx, hi]
          refine ⟨m, List.mem_cons_self, mapMessages_isSome l _ ?_⟩
          rw [assign_ids, Function.update_self, List.getElem?_eq_getElem hlt]
          rfl
        · rw [plainStep_unrelated (hplain m List.mem_cons_self) hgen hzero hrelated]
          have hne : live m ≠ f := fun h => hrelated (h ▸ hf)
          rw [unskipped_cons_other hne] at hlt
          exact hstep s hidx hlt
      · rw [plainStep_surplus hgen (Nat.pos_of_ne_zero hzero)]
        refine hstep (s.spend (live m)) hidx ?_
        by_cases hm : live m = f
        · subst hm
          rw [unskipped_cons_self hgen] at hlt
          rw [spend_self]
          omega
        · rw [unskipped_cons_other hm] at hlt
          rwa [spend_other (Ne.symm hm)]

theorem admits_self (r : CandidateRow) : r.admits r.identity = true := by
  simp [CandidateRow.admits, CandidateRow.forms]

/-- Copies that are not passed over get their own rows. -/
theorem mapMessages_own (l : List Nat) : ∀ s : MapState, (∀ m ∈ l, (data m).placeholder = none) → l.Nodup →
    l.map live = (rows.drop s.storeIdx).map CandidateRow.identity →
    (∀ m ∈ l, isGeneratedSurplus rows messages live generated m = false) → (∀ m ∈ l, s.skips (live m) = 0) →
    (∀ k m, l[k]? = some m →
      (mapMessages rows messages data live generated l s).ids m = rows[s.storeIdx + k]?.map CandidateRow.storeId) := by
  induction l with
  | nil => simp
  | cons m l ih =>
    intro s hplain hnodup hmap hgen hskips k q hq
    obtain ⟨hm, hnodup⟩ := List.nodup_cons.mp hnodup
    obtain ⟨r, rest, hdrop⟩ : ∃ r rest, rows.drop s.storeIdx = r :: rest := by
      cases hdrop : rows.drop s.storeIdx with
      | nil => rw [hdrop] at hmap; cases hmap
      | cons r rest => exact ⟨r, rest, rfl⟩
    have hrow : rows[s.storeIdx]? = some r := by
      rw [← Nat.add_zero s.storeIdx, ← List.getElem?_drop, hdrop]
      rfl
    have hnext : rows.drop (s.storeIdx + 1) = rest := by rw [← List.drop_drop, hdrop]; rfl
    rw [hdrop, List.map_cons, List.map_cons, List.cons.injEq] at hmap
    have hfound : findRow rows (·.admits (live m)) s.storeIdx = some s.storeIdx :=
      findRow_head hrow (by rw [hmap.1]; exact admits_self r)
    have hstep : mapMessages rows messages data live generated (m :: l) s =
        mapMessages rows messages data live generated l (s.assign rows m s.storeIdx) := by
      rw [mapMessages, mapStep_plain (hplain m List.mem_cons_self),
        plainStep_search (hplain m List.mem_cons_self) (hgen m List.mem_cons_self)
          (hskips m List.mem_cons_self), hfound]
    rw [hstep]
    cases k with
    | zero =>
      rw [List.getElem?_cons_zero] at hq
      cases hq
      rw [mapMessages_other l _ hm, assign_ids, Function.update_self, Nat.add_zero]
    | succ k =>
      rw [List.getElem?_cons_succ] at hq
      have hown := ih (s.assign rows m s.storeIdx) (fun q hq => hplain q (List.mem_cons_of_mem _ hq)) hnodup
        (by rw [assign_storeIdx, hnext]; exact hmap.2) (fun q hq => hgen q (List.mem_cons_of_mem _ hq))
        (fun q hq => hskips q (List.mem_cons_of_mem _ hq)) k q hq
      rw [hown, assign_storeIdx, Nat.add_assoc, Nat.add_comm 1 k]

/-- A copy that is passed over gets no row. -/
theorem mapMessages_passed {u v : List Nat} {m : Nat} {s : MapState}
    (hplain : ∀ q ∈ u ++ m :: v, (data q).placeholder = none)
    (hnodup : (u ++ m :: v).Nodup) (hids : s.ids m = none)
    (hpassed : isGeneratedSurplus rows messages live generated m = true ∨
      0 < (mapMessages rows messages data live generated u s).skips (live m)) :
    (mapMessages rows messages data live generated (u ++ m :: v) s).ids m = none := by
  have hu : m ∉ u := fun h => (List.nodup_append.mp hnodup).2.2 m h m List.mem_cons_self rfl
  have hv : m ∉ v := (List.nodup_cons.mp (List.nodup_append.mp hnodup).2.1).1
  have hfirst : (mapMessages rows messages data live generated u s).ids m = none := by
    rw [mapMessages_other u s hu, hids]
  rw [mapMessages_append u _ s fun q hq => hplain q (List.mem_append_left _ hq), mapMessages, mapMessages_other v _ hv,
    mapStep_plain (hplain m (List.mem_append_right _ List.mem_cons_self))]
  cases hgen : isGeneratedSurplus rows messages live generated m with
  | true => rw [plainStep_skipped hgen, hfirst]
  | false =>
    rw [hgen] at hpassed
    rw [plainStep_surplus hgen (hpassed.resolve_left (by decide)), spend_ids, hfirst]

/-- Every copy has its own row and no earlier message has one exactly when the skips of every identity are those of
the earlier messages. -/
theorem storeIdsOf_carry_iff {earlier copies : List Nat} (hmessages : messages = earlier ++ copies)
    (hplain : ∀ m ∈ messages, (data m).placeholder = none) (hnodup : copies.Nodup) (hapart : ∀ m ∈ copies, m ∉ earlier)
    (hcopied : copies.map live = rows.map CandidateRow.identity) :
    ((∀ k m : Nat, copies[k]? = some m →
      storeIdsOf rows messages data live generated m = rows[k]?.map CandidateRow.storeId) ∧
      ∀ m ∈ earlier, storeIdsOf rows messages data live generated m = none) ↔
    (∀ f, Related rows f → unskipped rows messages live generated earlier f ≤
      activeSurplusSkips rows messages live generated f) ∧
      (∀ m ∈ copies, isGeneratedSurplus rows messages live generated m = false) ∧
      ∀ r ∈ rows, activeSurplusSkips rows messages live generated r.identity ≤
        unskipped rows messages live generated earlier r.identity := by
  have hearlier : ∀ m ∈ earlier, (data m).placeholder = none :=
    fun m hm => hplain m (hmessages ▸ List.mem_append_left _ hm)
  have hcopies : ∀ m ∈ copies, (data m).placeholder = none :=
    fun m hm => hplain m (hmessages ▸ List.mem_append_right _ hm)
  have hlength : copies.length = rows.length := by simpa using congrArg List.length hcopied
  let start : MapState := ⟨fun _ => none, 0, activeSurplusSkips rows messages live generated⟩
  let middle := mapMessages rows messages data live generated earlier start
  have hrun : storeIdsOf rows messages data live generated =
      (mapMessages rows messages data live generated copies middle).ids := by
    have happend := @mapMessages_append rows messages data live generated earlier copies start hearlier
    rw [← hmessages] at happend
    rw [storeIdsOf, happend]
  constructor
  · rintro ⟨hown, hnone⟩
    have hfirst : ∀ f, Related rows f →
        unskipped rows messages live generated earlier f ≤ activeSurplusSkips rows messages live generated f := by
      intro f hf
      by_contra hlt
      obtain ⟨m, hm, hsome⟩ := mapMessages_take earlier start rfl hearlier ⟨f, hf, Nat.lt_of_not_le hlt⟩
      have hkept := @mapMessages_isSome rows messages data live generated m copies middle hsome
      rw [← hrun, hnone m hm] at hkept
      cases hkept
    obtain ⟨hids, hidx, hskips⟩ := mapMessages_pass earlier start hearlier hfirst
    -- no copy is passed over
    have hpassed : ∀ u m v, copies = u ++ m :: v → ¬ (isGeneratedSurplus rows messages live generated m = true ∨
        0 < (mapMessages rows messages data live generated u middle).skips (live m)) := by
      intro u m v hsplit hpass
      have hmiddle : middle.ids m = none := congrFun hids m
      have hlost := mapMessages_passed (hsplit ▸ hcopies) (hsplit ▸ hnodup) hmiddle hpass
      rw [← hsplit, ← hrun, hown u.length m (by rw [hsplit]; simp)] at hlost
      have hlt : u.length < rows.length := by rw [← hlength, hsplit]; simp
      rw [List.getElem?_eq_getElem hlt] at hlost
      cases hlost
    refine ⟨hfirst, fun m hm => ?_, fun r hr => ?_⟩
    · obtain ⟨u, v, hsplit⟩ := List.append_of_mem hm
      exact Bool.eq_false_of_not_eq_true fun hgen => hpassed u m v hsplit (.inl hgen)
    · by_contra hlt
      obtain ⟨m, hm, hlive⟩ : ∃ m ∈ copies, live m = r.identity :=
        List.mem_map.mp (hcopied ▸ List.mem_map_of_mem hr)
      have hsome : (copies.find? fun m => decide (live m = r.identity)).isSome = true :=
        List.find?_isSome.mpr ⟨m, hm, decide_eq_true hlive⟩
      obtain ⟨q, hq⟩ := Option.isSome_iff_exists.mp hsome
      obtain ⟨hlive, u, v, hsplit, hu⟩ := List.find?_eq_some_iff_append.mp hq
      rw [decide_eq_true_eq] at hlive
      apply hpassed u q v hsplit
      right
      rw [mapMessages_skips u middle (fun m hm => hcopies m (by rw [hsplit]; exact List.mem_append_left _ hm))
        (fun m hm => by simpa [hlive] using hu m hm), hskips, hlive]
      exact Nat.sub_pos_of_lt (Nat.lt_of_not_le hlt)
  · rintro ⟨hfirst, hgen, hlast⟩
    obtain ⟨hids, hidx, hskips⟩ := mapMessages_pass earlier start hearlier hfirst
    have hzero : middle.storeIdx = 0 := hidx
    have hspent : ∀ m ∈ copies, middle.skips (live m) = 0 := by
      intro m hm
      obtain ⟨r, hr, hlive⟩ := List.mem_map.mp
        (hcopied ▸ List.mem_map_of_mem hm : live m ∈ rows.map CandidateRow.identity)
      rw [hskips, ← hlive]
      exact Nat.sub_eq_zero_of_le (hlast r hr)
    refine ⟨fun k m hm => ?_, fun m hm => ?_⟩
    · have hown := mapMessages_own copies middle hcopies hnodup (by rw [hzero]; exact hcopied) hgen hspent k m hm
      rw [hrun, hown, hzero, Nat.zero_add]
    · rw [hrun, mapMessages_other copies middle fun hcopy => hapart m hcopy hm]
      exact congrFun hids m

end

end Reconcile
