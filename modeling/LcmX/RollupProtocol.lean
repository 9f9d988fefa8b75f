import LcmX.RollupFence

/-!
# Terminal calls over whole runs

A token loses its row for good: at the first write that hits the row, or at its
own first successful call.
-/
namespace RollupStore

variable (readIso : String → Option Int)

/-! ## One terminal call -/

def Op.claimNonce : Op → Option String
  | .upsertBuilding _ _ _ nonce => some nonce
  | _ => none

def Op.terminalToken : Op → Option RollupBuildToken
  | .markReady token _ _ _ _ _ => some token
  | .markFailed token _ _ => some token
  | .deferIncomplete token _ => some token
  | .resolveNoSource token => some token
  | _ => none

def Owned (s : Store) (t : RollupBuildToken) : Prop := ∃ row ∈ s.rows, t.owns row = true

theorem owns_iff (t : RollupBuildToken) (row : Row) : t.owns row = true ↔
    row.rollupId = t.rollupId ∧ row.generation = t.generation ∧ row.leaseNonce = t.nonce ∧ row.status = .building := by
  simp [RollupBuildToken.owns, and_assoc]

theorem Idle.not_owns {row : Row} (h : Idle row) (t : RollupBuildToken) : t.owns row = false := by
  rw [Bool.eq_false_iff]
  intro ho
  exact h.status ((owns_iff t row).mp ho).2.2.2

variable {t : RollupBuildToken}

theorem updateOwned_of_not_owned {s : Store} (h : ¬ Owned s t) (update : Row → Row) :
    updateOwned t update s = s := by
  have hrows : s.rows.map (fun r => if t.owns r then update r else r) = s.rows := by
    conv => rhs; rw [← List.map_id s.rows]
    apply List.map_congr_left
    intro r hr
    rw [if_neg (fun ho => h ⟨r, hr, ho⟩)]
    rfl
  rw [updateOwned, hrows]

/-- The call without ownership changes nothing and does not succeed. -/
theorem terminal_not_owned {s : Store} {op : Op} (ht : op.terminalToken = some t)
    (h : ¬ Owned s t) : (step readIso s op).1 = s ∧ (step readIso s op).2 ≠ .done true := by
  have hfind : s.rows.find? t.owns = none := List.find?_eq_none.mpr (fun r hr ho => h ⟨r, hr, ho⟩)
  have hany : s.rows.any t.owns = false := by
    rw [Bool.eq_false_iff]
    intro ha
    obtain ⟨r, hr, ho⟩ := List.any_eq_true.mp ha
    exact h ⟨r, hr, ho⟩
  cases op with
  | markReady token summary tokenCount ids fingerprint now =>
    cases ht
    simp only [step, markReady, hfind]
    split <;> simp
  | markFailed token error now =>
    cases ht
    simp only [step, markFailed, releaseOwned, updateOwned_of_not_owned h, hany]
    simp
  | deferIncomplete token reason =>
    cases ht
    simp only [step, deferIncomplete, releaseOwned, updateOwned_of_not_owned h, hany]
    simp
  | resolveNoSource token =>
    cases ht
    simp [step, resolveNoSource, hany]
  | upsertBuilding | markStaleForDay | staleAggregatesForDay | upsertStale | reclaimStaleBuilding
  | purgeRollupsForSources | drainInvalidations | insertNode | deleteNode | updateNode => cases ht

theorem not_owned_updateOwned {s s' : Store} {update : Row → Row} (hu : ∀ r, Idle (update r))
    (hrows : s'.rows = (updateOwned t update s).rows) : ¬ Owned s' t := by
  rintro ⟨row, hrow, ho⟩
  rw [hrows] at hrow
  obtain ⟨r, hr, rfl⟩ := List.mem_map.mp hrow
  by_cases hro : t.owns r = true
  · rw [if_pos hro, (hu r).not_owns t] at ho
    cases ho
  · rw [if_neg hro] at ho
    exact hro ho

/-- A call that succeeds gives the row up. -/
theorem terminal_success {s : Store} {op : Op} (ht : op.terminalToken = some t)
    (h : (step readIso s op).2 = .done true) : ¬ Owned (step readIso s op).1 t := by
  cases op with
  | markReady token summary tokenCount ids fingerprint now =>
    cases ht
    revert h
    simp only [step, markReady]
    split
    · split <;> simp
    · split
      · simp
      · split
        · simp
        · split
          · simp
          · intro _
            exact not_owned_updateOwned (fun r => ⟨rfl, by simp [publish]⟩) rfl
  | markFailed token error now =>
    cases ht
    exact not_owned_updateOwned (fun r => ⟨rfl, by simp⟩) rfl
  | deferIncomplete token reason =>
    cases ht
    exact not_owned_updateOwned (fun r => ⟨rfl, by simp⟩) rfl
  | resolveNoSource token =>
    cases ht
    revert h
    simp only [step, resolveNoSource]
    split
    · rintro - ⟨row, hrow, ho⟩
      have hnot := (List.mem_filter.mp hrow).2
      rw [ho] at hnot
      cases hnot
    · simp
  | upsertBuilding | markStaleForDay | staleAggregatesForDay | upsertStale | reclaimStaleBuilding
  | purgeRollupsForSources | drainInvalidations | insertNode | deleteNode | updateNode => cases ht

/-- The demotion `mark_ready` makes of a row it still owns. -/
def Demotes (t : RollupBuildToken) (op : Op) (s s' : Store) : Prop :=
  (∃ summary tokenCount ids fingerprint now, op = .markReady t summary tokenCount ids fingerprint now) ∧
    Owned s t ∧ ∃ reason, s' = updateOwned t (demote reason) s

/-- A call that does not succeed leaves the store, or demotes its own row. -/
theorem terminal_lost {s : Store} {op : Op} (ht : op.terminalToken = some t)
    (h : (step readIso s op).2 ≠ .done true) :
    (step readIso s op).1 = s ∨ Demotes t op s (step readIso s op).1 := by
  by_cases ho : Owned s t
  · obtain ⟨row, hrow, howns⟩ := ho
    have hany : s.rows.any t.owns = true := List.any_eq_true.mpr ⟨row, hrow, howns⟩
    cases op with
    | markReady token summary tokenCount ids fingerprint now =>
      cases ht
      have hform : ∃ summary' tokenCount' ids' fingerprint' now',
          Op.markReady t summary tokenCount ids fingerprint now =
            .markReady t summary' tokenCount' ids' fingerprint' now' := ⟨_, _, _, _, _, rfl⟩
      revert h
      simp only [step, markReady]
      split
      · split <;> exact fun _ => Or.inl rfl
      · split
        · exact fun _ => Or.inl rfl
        · split
          · exact fun _ => Or.inr ⟨hform, ⟨row, hrow, howns⟩, _, rfl⟩
          · split
            · exact fun _ => Or.inr ⟨hform, ⟨row, hrow, howns⟩, _, rfl⟩
            · exact fun h => absurd rfl h
    | markFailed token error now =>
      cases ht
      exact absurd (by simp [step, markFailed, releaseOwned, hany]) h
    | deferIncomplete token reason =>
      cases ht
      exact absurd (by simp [step, deferIncomplete, releaseOwned, hany]) h
    | resolveNoSource token =>
      cases ht
      exact absurd (by simp [step, resolveNoSource, hany]) h
    | upsertBuilding | markStaleForDay | staleAggregatesForDay | upsertStale | reclaimStaleBuilding
    | purgeRollupsForSources | drainInvalidations | insertNode | deleteNode | updateNode => cases ht
  · exact Or.inl (terminal_not_owned readIso ht ho).1

/-- Ownership is only ever gained by the claim of the token's nonce. -/
theorem owned_step {s : Store} {op : Op} (h : Owned (step readIso s op).1 t) :
    Owned s t ∨ op.claimNonce = some t.nonce := by
  obtain ⟨row, hrow, ho⟩ := h
  rcases step_rows readIso hrow with hs | hidle | ⟨-, now, deadline, rfl⟩
  · exact Or.inl ⟨row, hs, ho⟩
  · rw [hidle.not_owns t] at ho
    cases ho
  · right
    rw [Op.claimNonce, ((owns_iff t row).mp ho).2.2.1]

/-- A hit takes the row from every token but that of the hitting claim. -/
theorem not_owned_of_hit {s : Store} {op : Op} (hid : IdInv s)
    (hit : hits readIso s op t.rollupId) (hclaim : op.claimNonce ≠ some t.nonce) :
    ¬ Owned (step readIso s op).1 t := by
  rintro ⟨row, hrow, ho⟩
  obtain ⟨h1, -, h3, -⟩ := (owns_iff t row).mp ho
  cases step_hit readIso hid hit hrow h1 with
  | inl hidle =>
    rw [hidle.not_owns t] at ho
    cases ho
  | inr hc =>
    obtain ⟨key, now, deadline, rfl⟩ := hc
    exact hclaim (by rw [Op.claimNonce, h3])

/-! ## Runs -/

section Positions

variable {σ α : Type} {f : σ → α → σ} {s : σ} {steps : List α}

theorem foldl_take_succ {k : Nat} {a : α} (h : steps[k]? = some a) :
    (steps.take (k + 1)).foldl f s = f ((steps.take k).foldl f s) a := by
  simp [List.take_add_one, h]

/-- After the last step the state stays. -/
theorem foldl_take_none {k : Nat} (h : steps[k]? = none) :
    (steps.take (k + 1)).foldl f s = (steps.take k).foldl f s := by
  have hlen : steps.length ≤ k := List.getElem?_eq_none_iff.mp h
  rw [List.take_of_length_le hlen, List.take_of_length_le (Nat.le_succ_of_le hlen)]

theorem foldl_take_induction {P : σ → Prop} {i : Nat} (hi : P ((steps.take i).foldl f s))
    (hstep : ∀ k a, i ≤ k → steps[k]? = some a → P ((steps.take k).foldl f s) → P (f ((steps.take k).foldl f s) a)) :
    ∀ j, i ≤ j → P ((steps.take j).foldl f s) := by
  intro j hj
  induction j, hj using Nat.le_induction with
  | base => exact hi
  | succ k hk ih =>
    cases ha : steps[k]? with
    | none =>
      rw [foldl_take_none ha]
      exact ih
    | some a =>
      rw [foldl_take_succ ha]
      exact hstep k a hk ha ih

end Positions

def initial (hasSummaryNodes : Bool) : Store := { hasSummaryNodes := hasSummaryNodes }

def claimNonces (ops : List Op) : List String := ops.filterMap Op.claimNonce

/-- The store before the transaction at position `k`. -/
def stateAt (hasSummaryNodes : Bool) (ops : List Op) (k : Nat) : Store :=
  run readIso (initial hasSummaryNodes) (ops.take k)

section Runs

variable {readIso}
variable {hasSummaryNodes : Bool} {ops : List Op}

theorem stateAt_succ {k : Nat} {op : Op} (h : ops[k]? = some op) :
    stateAt readIso hasSummaryNodes ops (k + 1) = (step readIso (stateAt readIso hasSummaryNodes ops k) op).1 :=
  foldl_take_succ h

/-- Induction along a run: from the state at `i`, step by step. -/
theorem stateAt_induction {P : Store → Prop} {i : Nat} (hi : P (stateAt readIso hasSummaryNodes ops i))
    (hstep : ∀ k op, i ≤ k → ops[k]? = some op → P (stateAt readIso hasSummaryNodes ops k) →
      P (step readIso (stateAt readIso hasSummaryNodes ops k) op).1) :
    ∀ j, i ≤ j → P (stateAt readIso hasSummaryNodes ops j) :=
  foldl_take_induction hi hstep

theorem idInv_stateAt (k : Nat) : IdInv (stateAt readIso hasSummaryNodes ops k) := by
  apply stateAt_induction (P := IdInv) (i := 0) _ _ k (Nat.zero_le k)
  · exact ⟨by simp [stateAt, run, initial], by simp [stateAt, run, initial]⟩
  · exact fun k op _ _ h => idInv_step readIso h op

theorem mem_claimNonces {k : Nat} {op : Op} {nonce : String} (h : ops[k]? = some op) (hn : op.claimNonce = some nonce) :
    nonce ∈ claimNonces ops :=
  List.mem_filterMap.mpr ⟨op, List.mem_of_getElem? h, hn⟩

/-- A row carries a nonce exactly while it is being built. -/
theorem nonce_iff_building (hne : "" ∉ claimNonces ops) (k : Nat) :
    ∀ row ∈ (stateAt readIso hasSummaryNodes ops k).rows, row.leaseNonce ≠ "" ↔ row.status = .building := by
  apply stateAt_induction (P := fun s => ∀ row ∈ s.rows, row.leaseNonce ≠ "" ↔ row.status = .building) (i := 0) _ _ k
    (Nat.zero_le k)
  · simp [stateAt, run, initial]
  · intro k op _ hop ih row hrow
    rcases step_rows readIso hrow with hs | hidle | ⟨hb, now, deadline, rfl⟩
    · exact ih row hs
    · simp [hidle.nonce, hidle.status]
    · have hin := mem_claimNonces hop (rfl : Op.claimNonce _ = some row.leaseNonce)
      simp only [hb, iff_true]
      exact fun he => hne (he ▸ hin)

/-- Two claims of a run never share a nonce. -/
theorem claimNonce_unique (hnodup : (claimNonces ops).Nodup) {i k : Nat} {a b : Op} {nonce : String}
    (hi : ops[i]? = some a) (hk : ops[k]? = some b) (ha : a.claimNonce = some nonce) (hb : b.claimNonce = some nonce) :
    i = k := by
  have hpair := List.pairwise_filterMap.mp hnodup
  rw [List.pairwise_iff_getElem] at hpair
  obtain ⟨hi', rfl⟩ := List.getElem?_eq_some_iff.mp hi
  obtain ⟨hk', rfl⟩ := List.getElem?_eq_some_iff.mp hk
  rcases Nat.lt_trichotomy i k with h | h | h
  · exact absurd rfl (hpair i k hi' hk' h nonce ha nonce hb)
  · exact h
  · exact absurd rfl (hpair k i hk' hi' h nonce hb nonce ha)

/-- A token lost after its claim is never owned again. -/
theorem not_owned_stateAt (hnodup : (claimNonces ops).Nodup) {i k j : Nat} {claim : Op} {t : RollupBuildToken}
    (hi : ops[i]? = some claim) (hc : claim.claimNonce = some t.nonce) (hik : i < k) (hkj : k ≤ j)
    (h : ¬ Owned (stateAt readIso hasSummaryNodes ops k) t) : ¬ Owned (stateAt readIso hasSummaryNodes ops j) t := by
  apply stateAt_induction (P := fun s => ¬ Owned s t) h _ j hkj
  intro m op hm hop ih ho
  cases owned_step readIso ho with
  | inl hs => exact ih hs
  | inr hn =>
    have := claimNonce_unique hnodup hi hop hc hn
    omega

/-- The token a claim returns carries the claim's nonce. -/
theorem token_nonce {s : Store} {op : Op} {t : RollupBuildToken} (h : (step readIso s op).2 = .token t) :
    op.claimNonce = some t.nonce := by
  cases op with
  | upsertBuilding key now deadline nonce =>
    simp only [step, upsertBuilding] at h
    split at h
    · rename_i row hfind
      cases h
      have hmem := List.mem_of_find?_eq_some hfind
      have hkey : row.key = key := by simpa using List.find?_some hfind
      unfold upsertRow at hmem
      split at hmem
      · obtain ⟨r, hr, rfl⟩ := List.mem_map.mp hmem
        by_cases hk : r.key = key
        · simp [Op.claimNonce, hk, claimUpdate]
        · rw [if_neg hk] at hkey
          exact absurd hkey hk
      · rename_i hnone
        rcases List.mem_append.mp hmem with hr | hr
        · exact absurd (List.any_eq_true.mpr ⟨row, hr, by simpa using hkey⟩) hnone
        · rw [List.mem_singleton.mp hr]
          rfl
    · cases h
  | markReady token summary tokenCount ids fingerprint now =>
    simp only [step, markReady] at h
    split at h
    · split at h <;> cases h
    · split at h
      · cases h
      · split at h
        · cases h
        · split at h <;> cases h
  | resolveNoSource token =>
    simp only [step, resolveNoSource] at h
    split at h <;> cases h
  | markStaleForDay day scope =>
    simp only [step, markStaleForDay] at h
    split at h <;> cases h
  | staleAggregatesForDay day scope =>
    simp only [step, staleAggregatesForDay] at h
    split at h <;> cases h
  | upsertStale targets =>
    simp only [step, upsertStale] at h
    split at h <;> cases h
  | drainInvalidations eventLimit dayBudget =>
    simp only [step, drainInvalidations] at h
    split at h
    · cases h
    · split at h <;> cases h
  | markFailed | deferIncomplete | reclaimStaleBuilding | purgeRollupsForSources | insertNode | deleteNode
  | updateNode => cases h

/-- The row with an id and its sources. -/
def view (s : Store) (id : Nat) : List Row × List (Nat × Int) :=
  (s.rows.filter (fun r => r.rollupId = id), s.sources.filter (fun x => x.1 = id))

end Runs

/-- Over any run whose claims carry distinct nonces: a nonce marks exactly the
rows being built; a token's call changes its row only if nothing hit the row
since the claim; only one call of a token succeeds; and a call that does not
succeed changes nothing but a row `mark_ready` demotes while it owns it. -/
theorem build_protocol (hasSummaryNodes : Bool) (ops : List Op) (hnodup : (claimNonces ops).Nodup)
    (hne : "" ∉ claimNonces ops) :
    (∀ row ∈ (run readIso (initial hasSummaryNodes) ops).rows, row.leaseNonce ≠ "" ↔ row.status = .building) ∧
    ∀ (i j : Nat) (t : RollupBuildToken) (claim term : Op),
      ops[i]? = some claim → (step readIso (stateAt readIso hasSummaryNodes ops i) claim).2 = .token t →
      i < j → ops[j]? = some term → term.terminalToken = some t →
      (view (stateAt readIso hasSummaryNodes ops (j + 1)) t.rollupId ≠
          view (stateAt readIso hasSummaryNodes ops j) t.rollupId →
        ∀ (k : Nat) (op : Op), i < k → k < j → ops[k]? = some op →
          ¬ hits readIso (stateAt readIso hasSummaryNodes ops k) op t.rollupId) ∧
      ((step readIso (stateAt readIso hasSummaryNodes ops j) term).2 = .done true →
        ∀ (j' : Nat) (term' : Op), j < j' → ops[j']? = some term' → term'.terminalToken = some t →
          (step readIso (stateAt readIso hasSummaryNodes ops j') term').2 ≠ .done true) ∧
      ((step readIso (stateAt readIso hasSummaryNodes ops j) term).2 ≠ .done true →
        stateAt readIso hasSummaryNodes ops (j + 1) = stateAt readIso hasSummaryNodes ops j ∨
        Demotes t term (stateAt readIso hasSummaryNodes ops j) (stateAt readIso hasSummaryNodes ops (j + 1))) := by
  refine ⟨?_, ?_⟩
  · have h := @nonce_iff_building readIso hasSummaryNodes ops hne ops.length
    rwa [stateAt, List.take_length] at h
  intro i j t claim term hi htok hij hj hterm
  have hc := token_nonce htok
  refine ⟨?_, ?_, ?_⟩
  · intro hchange k op hik hkj hop hit
    apply hchange
    have hother : op.claimNonce ≠ some t.nonce := fun hn => by
      have := claimNonce_unique hnodup hi hop hc hn
      omega
    have hlost := not_owned_of_hit readIso (idInv_stateAt k) hit hother
    rw [← stateAt_succ hop] at hlost
    have hlost' := not_owned_stateAt hnodup hi hc (show i < k + 1 by omega) (show k + 1 ≤ j by omega) hlost
    rw [stateAt_succ hj, (terminal_not_owned readIso hterm hlost').1]
  · intro hok j' term' hjj hj' hterm'
    have hlost := terminal_success readIso hterm hok
    rw [← stateAt_succ hj] at hlost
    have hlost' := not_owned_stateAt hnodup hi hc (show i < j + 1 by omega) (show j + 1 ≤ j' by omega) hlost
    exact (terminal_not_owned readIso hterm' hlost').2
  · intro hfail
    rw [stateAt_succ hj]
    exact terminal_lost readIso hterm hfail

/-- Two builders claim one day; the first one returns late. -/
def lateBuilder : List Op :=
  [.upsertBuilding (periodKey .day 739163 "s") "t0" "t9" "a",
    .upsertBuilding (periodKey .day 739163 "s") "t1" "t9" "b",
    .markReady ⟨1, 0, "a"⟩ "late" 1 [] "f" "t2"]

theorem late_builder_loses :
    (step (fun _ => none) (stateAt (fun _ => none) true lateBuilder 0)
      (.upsertBuilding (periodKey .day 739163 "s") "t0" "t9" "a")).2 = .token ⟨1, 0, "a"⟩ ∧
    (stateAt (fun _ => none) true lateBuilder 3 = stateAt (fun _ => none) true lateBuilder 2 ∨
      Demotes ⟨1, 0, "a"⟩ (.markReady ⟨1, 0, "a"⟩ "late" 1 [] "f" "t2")
        (stateAt (fun _ => none) true lateBuilder 2) (stateAt (fun _ => none) true lateBuilder 3)) :=
  ⟨by decide, ((build_protocol (fun _ => none) true lateBuilder (by decide) (by decide)).2 0 2 ⟨1, 0, "a"⟩ _ _ rfl
    (by decide) (by decide) rfl rfl).2.2 (by decide)⟩

end RollupStore
