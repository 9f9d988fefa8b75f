import LcmX.RollupStore

/-!
# The build protocol of a rollup row

Eight writers share a row. A token owns its row while the row still carries the
token's nonce, and a nonce enters a row only through its own claim. So a token
that has lost its row never owns it again, whatever runs in between.
-/
namespace RollupStore

/-! ## What a transaction does to the rows -/

/-- A row without a lease. -/
structure Idle (row : Row) : Prop where
  nonce : row.leaseNonce = ""
  status : row.status ≠ .building

theorem idle_seeded (key : Key) (id : Nat) : Idle (seeded key id) := ⟨rfl, by simp [seeded]⟩

theorem idle_stale (row : Row) : Idle (stale row) := ⟨rfl, by simp [stale]⟩

theorem idle_demote (reason : String) (row : Row) : Idle (demote reason row) := ⟨rfl, by simp [demote]⟩

theorem idle_purge (row : Row) : Idle (purge row) := ⟨rfl, by simp [purge, stale]⟩

theorem mem_upsertRow {key : Key} {fresh : Nat → Row} {update : Row → Row} {s : Store} {row : Row}
    (h : row ∈ (upsertRow key fresh update s).rows) :
    row ∈ s.rows ∨ (∃ r ∈ s.rows, r.key = key ∧ row = update r) ∨ row = fresh s.nextRollupId := by
  unfold upsertRow at h
  split at h
  · obtain ⟨r, hr, rfl⟩ := List.mem_map.mp h
    by_cases hk : r.key = key
    · rw [if_pos hk]
      exact Or.inr (Or.inl ⟨r, hr, hk, rfl⟩)
    · rw [if_neg hk]
      exact Or.inl hr
  · rcases List.mem_append.mp h with h | h
    · exact Or.inl h
    · exact Or.inr (Or.inr (List.mem_singleton.mp h))

/-- The invalidating upserts: a missing row is seeded, a present one updated. -/
def upsertKeys (update : Row → Row) (keys : List Key) (s : Store) : Store :=
  keys.foldl (fun s key => upsertRow key (seeded key) update s) s

/-- The update of `upsert_stale`. -/
def seedUpdate (r : Row) : Row := if r.status = .building then r else stale r

/-- Each row of the result was there or is idle. -/
theorem mem_upsertKeys {update : Row → Row} (hu : ∀ r, update r = r ∨ Idle (update r)) (keys : List Key) :
    ∀ (s : Store) (row : Row), row ∈ (upsertKeys update keys s).rows → row ∈ s.rows ∨ Idle row := by
  induction keys with
  | nil => exact fun _ _ h => Or.inl h
  | cons key keys ih =>
    intro s row h
    cases ih _ row h with
    | inr hidle => exact Or.inr hidle
    | inl hmem =>
      rcases mem_upsertRow hmem with hs | ⟨r, hr, -, rfl⟩ | rfl
      · exact Or.inl hs
      · cases hu r with
        | inl he => rw [he]; exact Or.inl hr
        | inr hi => exact Or.inr hi
      · exact Or.inr (idle_seeded _ _)

theorem stale_or (r : Row) : stale r = r ∨ Idle (stale r) := Or.inr (idle_stale r)

theorem seedUpdate_or (r : Row) : seedUpdate r = r ∨ Idle (seedUpdate r) := by
  unfold seedUpdate
  split
  · exact Or.inl rfl
  · exact Or.inr (idle_stale r)

theorem mem_updateOwned {token : RollupBuildToken} {update : Row → Row} {s : Store} {row : Row}
    (hu : ∀ r, Idle (update r)) (h : row ∈ (updateOwned token update s).rows) : row ∈ s.rows ∨ Idle row := by
  obtain ⟨r, hr, rfl⟩ := List.mem_map.mp h
  by_cases ho : token.owns r = true
  · rw [if_pos ho]
    exact Or.inr (hu r)
  · rw [if_neg ho]
    exact Or.inl hr

theorem mem_map_ids {ids : List Nat} {update : Row → Row} {rows : List Row} {row : Row} (hu : ∀ r, Idle (update r))
    (h : row ∈ rows.map (fun r => if r.rollupId ∈ ids then update r else r)) : row ∈ rows ∨ Idle row := by
  obtain ⟨r, hr, rfl⟩ := List.mem_map.mp h
  by_cases ho : r.rollupId ∈ ids
  · rw [if_pos ho]
    exact Or.inr (hu r)
  · rw [if_neg ho]
    exact Or.inl hr

section Steps

variable (readIso : String → Option Int)

variable {s s' : Store} {fresh : Nat → Row} {update : Row → Row}

theorem mem_markReady {token : RollupBuildToken} {summary : String} {tokenCount : Int} {ids : List Int}
    {fingerprint now : String} {row : Row}
    (h : row ∈ (markReady readIso token summary tokenCount ids fingerprint now s).1.rows) :
    row ∈ s.rows ∨ Idle row := by
  unfold markReady at h
  simp only at h
  split at h
  · split at h <;> exact Or.inl h
  · split at h
    · exact Or.inl h
    · split at h
      · exact mem_updateOwned (idle_demote _) h
      · split at h
        · exact mem_updateOwned (idle_demote _) h
        · exact mem_updateOwned (fun r => ⟨rfl, by simp [publish]⟩) h

/-- Every row after a transaction was there before it, or holds no lease, or is
the one the transaction claimed. -/
theorem step_rows {op : Op} {row : Row} (h : row ∈ (step readIso s op).1.rows) :
    row ∈ s.rows ∨ Idle row ∨
      (row.status = .building ∧ ∃ now deadline, op = .upsertBuilding row.key now deadline row.leaseNonce) := by
  have weaken : row ∈ s.rows ∨ Idle row → row ∈ s.rows ∨ Idle row ∨
      (row.status = .building ∧ ∃ now deadline, op = .upsertBuilding row.key now deadline row.leaseNonce) :=
    fun h => h.imp_right Or.inl
  cases op with
  | upsertBuilding key now deadline nonce =>
    have h' : row ∈ (upsertRow key (claimFresh key now deadline nonce) (claimUpdate now deadline nonce) s).rows := by
      simp only [step, upsertBuilding] at h
      split at h <;> exact h
    rcases mem_upsertRow h' with hs | ⟨r, -, rfl, rfl⟩ | rfl
    · exact Or.inl hs
    · exact Or.inr (Or.inr ⟨rfl, now, deadline, rfl⟩)
    · exact Or.inr (Or.inr ⟨rfl, now, deadline, rfl⟩)
  | markReady token summary tokenCount ids fingerprint now => exact weaken (mem_markReady readIso h)
  | markFailed token error now => exact weaken (mem_updateOwned (fun r => ⟨rfl, by simp⟩) h)
  | deferIncomplete token reason => exact weaken (mem_updateOwned (fun r => ⟨rfl, by simp⟩) h)
  | resolveNoSource token =>
    simp only [step, resolveNoSource] at h
    split at h
    · exact Or.inl (List.mem_of_mem_filter h)
    · exact Or.inl h
  | markStaleForDay day scope =>
    simp only [step, markStaleForDay] at h
    split at h
    · exact Or.inl h
    · exact weaken (mem_upsertKeys stale_or _ s row h)
  | staleAggregatesForDay day scope =>
    simp only [step, staleAggregatesForDay] at h
    split at h
    · exact Or.inl h
    · exact weaken (mem_upsertKeys stale_or _ s row h)
  | upsertStale targets =>
    simp only [step, upsertStale] at h
    split at h
    · exact Or.inl h
    · exact weaken (mem_upsertKeys seedUpdate_or _ s row h)
  | reclaimStaleBuilding cutoff limit => exact weaken (mem_map_ids idle_stale h)
  | purgeRollupsForSources nodeIds => exact weaken (mem_map_ids idle_purge h)
  | drainInvalidations eventLimit dayBudget =>
    simp only [step, drainInvalidations] at h
    split at h
    · exact Or.inl h
    · split at h
      · exact Or.inl h
      · rename_i plan _
        exact weaken (mem_upsertKeys stale_or plan.keys { s with invalidations := plan.invalidations } row h)
  | insertNode n =>
    simp only [step, insertNode] at h
    split at h <;> exact Or.inl h
  | deleteNode nodeId =>
    simp only [step, deleteNode] at h
    split at h <;> exact Or.inl h
  | updateNode n =>
    simp only [step, updateNode] at h
    split at h <;> exact Or.inl h

/-! ## Row ids -/

structure IdInv (s : Store) : Prop where
  nodup : (s.rows.map Row.rollupId).Nodup
  below : ∀ row ∈ s.rows, row.rollupId < s.nextRollupId

theorem IdInv.unique (h : IdInv s) {a b : Row} (ha : a ∈ s.rows) (hb : b ∈ s.rows)
    (he : a.rollupId = b.rollupId) : a = b :=
  List.inj_on_of_nodup_map h.nodup ha hb he

theorem idInv_map (h : IdInv s) {f : Row → Row} (hf : ∀ r, (f r).rollupId = r.rollupId)
    (hrows : s'.rows = s.rows.map f) (hnext : s'.nextRollupId = s.nextRollupId) : IdInv s' := by
  constructor
  · rw [hrows, List.map_map]
    have : Row.rollupId ∘ f = Row.rollupId := funext hf
    rw [this]
    exact h.nodup
  · intro row hrow
    rw [hrows] at hrow
    obtain ⟨r, hr, rfl⟩ := List.mem_map.mp hrow
    rw [hf, hnext]
    exact h.below r hr

theorem idInv_upsertRow (h : IdInv s) {key : Key}
    (hfresh : ∀ id, (fresh id).rollupId = id) (hupdate : ∀ r, (update r).rollupId = r.rollupId) :
    IdInv (upsertRow key fresh update s) := by
  unfold upsertRow
  split
  · refine idInv_map h (f := fun r => if r.key = key then update r else r) (fun r => ?_) rfl rfl
    split
    · exact hupdate r
    · rfl
  · constructor
    · simp only [List.map_append, List.map_cons, List.map_nil, hfresh, List.nodup_append]
      refine ⟨h.nodup, by simp, ?_⟩
      intro a ha b hb
      obtain ⟨r, hr, rfl⟩ := List.mem_map.mp ha
      have := h.below r hr
      rw [List.mem_singleton] at hb
      omega
    · intro row hrow
      rcases List.mem_append.mp hrow with hr | hr
      · exact Nat.lt_succ_of_lt (h.below row hr)
      · rw [List.mem_singleton.mp hr, hfresh]
        exact Nat.lt_succ_self _

theorem idInv_upsertKeys (hupdate : ∀ r, (update r).rollupId = r.rollupId) (keys : List Key) :
    ∀ s, IdInv s → IdInv (upsertKeys update keys s) := by
  induction keys with
  | nil => exact fun _ h => h
  | cons key keys ih => exact fun s h => ih _ (idInv_upsertRow h (fun _ => rfl) hupdate)

theorem stale_id (r : Row) : (stale r).rollupId = r.rollupId := rfl

theorem purge_id (r : Row) : (purge r).rollupId = r.rollupId := rfl

theorem seedUpdate_id (r : Row) : (seedUpdate r).rollupId = r.rollupId := by
  unfold seedUpdate
  split <;> rfl

theorem idInv_updateOwned (h : IdInv s) (token : RollupBuildToken)
    (hu : ∀ r, (update r).rollupId = r.rollupId) : IdInv (updateOwned token update s) := by
  refine idInv_map h (f := fun r => if token.owns r then update r else r) (fun r => ?_) rfl rfl
  split
  · exact hu r
  · rfl

theorem idInv_map_ids (h : IdInv s) (ids : List Nat)
    (hu : ∀ r, (update r).rollupId = r.rollupId)
    (hrows : s'.rows = s.rows.map (fun r => if r.rollupId ∈ ids then update r else r))
    (hnext : s'.nextRollupId = s.nextRollupId) : IdInv s' := by
  apply idInv_map h _ hrows hnext
  intro r
  split
  · exact hu r
  · rfl

theorem idInv_same (h : IdInv s) (hrows : s'.rows = s.rows) (hnext : s'.nextRollupId = s.nextRollupId) :
    IdInv s' :=
  ⟨by rw [hrows]; exact h.nodup, by rw [hrows, hnext]; exact h.below⟩

/-- An operation keeps the row ids distinct and below the next one. -/
theorem idInv_step (h : IdInv s) (op : Op) : IdInv (step readIso s op).1 := by
  cases op with
  | upsertBuilding key now deadline nonce =>
    have h' : IdInv (upsertRow key (claimFresh key now deadline nonce) (claimUpdate now deadline nonce) s) :=
      idInv_upsertRow h (fun _ => rfl) (fun _ => rfl)
    simp only [step, upsertBuilding]
    split <;> exact h'
  | markReady token summary tokenCount ids fingerprint now =>
    simp only [step, markReady]
    split
    · split <;> exact h
    · split
      · exact h
      · split
        · exact idInv_updateOwned h token (fun _ => rfl)
        · split
          · exact idInv_updateOwned h token (fun _ => rfl)
          · have hp : IdInv (updateOwned token (publish summary tokenCount fingerprint now) s) :=
              idInv_updateOwned h token (fun _ => rfl)
            exact idInv_same hp rfl rfl
  | markFailed token error now => exact idInv_updateOwned h token (fun _ => rfl)
  | deferIncomplete token reason => exact idInv_updateOwned h token (fun _ => rfl)
  | resolveNoSource token =>
    simp only [step, resolveNoSource]
    split
    · exact ⟨(List.filter_sublist.map _).nodup h.nodup, fun row hr => h.below row (List.mem_of_mem_filter hr)⟩
    · exact h
  | markStaleForDay day scope =>
    simp only [step, markStaleForDay]
    split
    · exact h
    · exact idInv_upsertKeys stale_id _ s h
  | staleAggregatesForDay day scope =>
    simp only [step, staleAggregatesForDay]
    split
    · exact h
    · exact idInv_upsertKeys stale_id _ s h
  | upsertStale targets =>
    simp only [step, upsertStale]
    split
    · exact h
    · exact idInv_upsertKeys seedUpdate_id _ s h
  | reclaimStaleBuilding cutoff limit => exact idInv_map_ids h (expired cutoff limit s) stale_id rfl rfl
  | purgeRollupsForSources nodeIds =>
    exact idInv_map_ids h (builtFrom nodeIds s) purge_id rfl rfl
  | drainInvalidations eventLimit dayBudget =>
    simp only [step, drainInvalidations]
    split
    · exact h
    · split
      · exact h
      · exact idInv_upsertKeys stale_id _ _ (idInv_same h rfl rfl)
  | insertNode n =>
    simp only [step, insertNode]
    split
    · exact h
    · exact idInv_same h rfl rfl
  | deleteNode nodeId =>
    simp only [step, deleteNode]
    split
    · exact h
    · exact idInv_same h rfl rfl
  | updateNode n =>
    simp only [step, updateNode]
    split
    · exact h
    · exact idInv_same h rfl rfl

/-! ## Writes that fence a token off -/

/-- The claim, stale-marking, drain, reclaim or purge writes the row with this
id. -/
def hits (s : Store) (op : Op) (id : Nat) : Prop :=
  ∃ row ∈ s.rows, row.rollupId = id ∧
    match op with
    | .upsertBuilding key _ _ _ => row.key = key
    | .markStaleForDay day scope => ∃ d, fromIsoformat readIso day = some d ∧ row.key ∈ dayKeys d scope
    | .staleAggregatesForDay day scope => ∃ d, fromIsoformat readIso day = some d ∧ row.key ∈ aggregateKeys d scope
    | .upsertStale targets =>
      row.status ≠ .building ∧ ∃ keys, expandStaleTargets readIso targets = some keys ∧ row.key ∈ keys
    | .reclaimStaleBuilding cutoff limit => id ∈ expired cutoff limit s
    | .purgeRollupsForSources nodeIds => id ∈ builtFrom nodeIds s
    | .drainInvalidations eventLimit dayBudget =>
      ¬ (eventLimit.toNat = 0 ∨ dayBudget.toNat = 0) ∧
        ∃ plan, drainEvents (s.invalidations.take eventLimit.toNat) dayBudget.toNat s.invalidations = some plan ∧
          row.key ∈ plan.keys
    | _ => False

theorem upsertRow_key_ne {key : Key} {row : Row}
    (hrow : row ∈ s.rows) (hne : row.key ≠ key) : row ∈ (upsertRow key fresh update s).rows := by
  unfold upsertRow
  split
  · exact List.mem_map.mpr ⟨row, hrow, by rw [if_neg hne]⟩
  · exact List.mem_append_left _ hrow

/-- The upsert of a row's key replaces the row by its update. -/
theorem upsertRow_key_eq {key : Key} (hid : IdInv s)
    {row row' : Row} (hrow : row ∈ s.rows) (hkey : row.key = key)
    (hupdate : ∀ r, (update r).rollupId = r.rollupId)
    (h : row' ∈ (upsertRow key fresh update s).rows) (he : row'.rollupId = row.rollupId) : row' = update row := by
  have hany : s.rows.any (fun r => r.key = key) = true := List.any_eq_true.mpr ⟨row, hrow, by simpa using hkey⟩
  rw [upsertRow, if_pos hany] at h
  obtain ⟨r, hr, rfl⟩ := List.mem_map.mp h
  have hrid : (if r.key = key then update r else r).rollupId = r.rollupId := by
    split
    · exact hupdate r
    · rfl
  rw [hrid] at he
  rw [hid.unique hr hrow he, if_pos hkey]

theorem upsertKeys_hit (hu : ∀ r, update r = r ∨ Idle (update r))
    (hupdate : ∀ r, (update r).rollupId = r.rollupId) (keys : List Key) :
    ∀ (s : Store) (row row' : Row), IdInv s → row ∈ s.rows → Idle (update row) → row.key ∈ keys →
      row' ∈ (upsertKeys update keys s).rows → row'.rollupId = row.rollupId → Idle row' := by
  induction keys with
  | nil => exact fun _ _ _ _ _ _ hk => absurd hk (by simp)
  | cons key keys ih =>
    intro s row row' hid hrow hidle hk h he
    have hid' : IdInv (upsertRow key (seeded key) update s) := idInv_upsertRow hid (fun _ => rfl) hupdate
    by_cases hkey : row.key = key
    · -- the head replaces the row, and an idle row stays idle
      cases mem_upsertKeys hu keys _ row' h with
      | inr hi => exact hi
      | inl hmem =>
        rw [upsertRow_key_eq hid hrow hkey hupdate hmem he]
        exact hidle
    · have hk' : row.key ∈ keys := (List.mem_cons.mp hk).resolve_left hkey
      exact ih _ row row' hid' (upsertRow_key_ne hrow hkey) hidle hk' h he

theorem map_ids_hit {rows : List Row} {ids : List Nat} (hu : ∀ r, Idle (update r))
    {row' : Row} {id : Nat} (hin : id ∈ ids)
    (h : row' ∈ rows.map (fun r => if r.rollupId ∈ ids then update r else r)) (he : row'.rollupId = id) :
    Idle row' := by
  obtain ⟨r, hr, rfl⟩ := List.mem_map.mp h
  by_cases ho : r.rollupId ∈ ids
  · rw [if_pos ho]
    exact hu r
  · rw [if_neg ho] at he
    exact absurd (he ▸ hin) ho

/-- After a hit the row carries no lease, or the lease of the claim that hit it. -/
theorem step_hit {op : Op} {id : Nat} {row' : Row} (hid : IdInv s) (hit : hits readIso s op id)
    (h : row' ∈ (step readIso s op).1.rows) (he : row'.rollupId = id) :
    Idle row' ∨ ∃ key now deadline, op = .upsertBuilding key now deadline row'.leaseNonce := by
  obtain ⟨row, hrow, hrid, hit⟩ := hit
  cases op with
  | upsertBuilding key now deadline nonce =>
    have h' : row' ∈ (upsertRow key (claimFresh key now deadline nonce) (claimUpdate now deadline nonce) s).rows := by
      simp only [step, upsertBuilding] at h
      split at h <;> exact h
    have hclaim : ∀ r, (claimUpdate now deadline nonce r).rollupId = r.rollupId := fun _ => rfl
    rw [upsertRow_key_eq hid hrow hit hclaim h' (he.trans hrid.symm)]
    exact Or.inr ⟨key, now, deadline, rfl⟩
  | markStaleForDay day scope =>
    obtain ⟨d, hd, hk⟩ := hit
    simp only [step, markStaleForDay, hd] at h
    exact Or.inl (upsertKeys_hit stale_or stale_id _ s row row' hid hrow (idle_stale row) hk h (he.trans hrid.symm))
  | staleAggregatesForDay day scope =>
    obtain ⟨d, hd, hk⟩ := hit
    simp only [step, staleAggregatesForDay, hd] at h
    exact Or.inl (upsertKeys_hit stale_or stale_id _ s row row' hid hrow (idle_stale row) hk h (he.trans hrid.symm))
  | upsertStale targets =>
    obtain ⟨hst, keys, hkeys, hk⟩ := hit
    simp only [step, upsertStale, hkeys] at h
    have hidle : Idle (seedUpdate row) := by
      rw [seedUpdate, if_neg hst]
      exact idle_stale row
    exact Or.inl (upsertKeys_hit seedUpdate_or seedUpdate_id _ s row row' hid hrow hidle hk h (he.trans hrid.symm))
  | reclaimStaleBuilding cutoff limit => exact Or.inl (map_ids_hit idle_stale hit h he)
  | purgeRollupsForSources nodeIds => exact Or.inl (map_ids_hit idle_purge hit h he)
  | drainInvalidations eventLimit dayBudget =>
    obtain ⟨hpos, plan, hplan, hk⟩ := hit
    simp only [step, drainInvalidations, if_neg hpos, hplan] at h
    exact Or.inl (upsertKeys_hit stale_or stale_id _ { s with invalidations := plan.invalidations } row row'
      (idInv_same hid rfl rfl) hrow (idle_stale row) hk h (he.trans hrid.symm))
  | markReady | markFailed | deferIncomplete | resolveNoSource | insertNode | deleteNode | updateNode => cases hit

end Steps

end RollupStore
