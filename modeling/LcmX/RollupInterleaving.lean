import LcmX.RollupSupersession

/-!
# Statements of one call between those of others

A connection opens its transaction at the first write, so `mark_ready` reads the
lease and the outbox, and `drain_invalidations` its events, before they hold
anything. Other transactions commit in between. Every other call is one write
transaction.
-/
namespace RollupStore

open Gregorian

/-! ## Calls in flight -/

/-- The arguments of a `mark_ready`. -/
structure Publication where
  token : RollupBuildToken
  summary : String
  tokenCount : Int
  sourceNodeIds : List Int
  fingerprint : String
  now : String
  deriving DecidableEq, Repr

/-- A call between two of its statements, with what it has read. -/
inductive Call where
  | leased (p : Publication) (key : Key)
  | tested (p : Publication) (key : Key) (pending : Bool)
  | fetched (events : List Event) (dayBudget : Int)
  deriving DecidableEq, Repr

structure System where
  store : Store := {}
  calls : List Call := []
  deriving DecidableEq, Repr

/-- `advance i` is the next statement of a call in flight. One that raises or is
killed is not advanced again. -/
inductive Act where
  | transaction (op : Op)
  | markReady (p : Publication)
  | drainInvalidations (eventLimit dayBudget : Int)
  | advance (i : Nat)
  deriving DecidableEq, Repr

/-- The calls that are one write transaction. -/
def Op.single : Op → Bool
  | .markReady .. | .drainInvalidations .. => false
  | _ => true

/-- The write of `mark_ready` after its pending test. The sources are tested in
the transaction of the write, and the write tests the lease again. -/
def settle (p : Publication) (pending : Bool) (s : Store) : Store × Result :=
  let unique := p.sourceNodeIds.eraseDups
  if pending then (updateOwned p.token (demote "source mutation pending") s, .done false)
  else if missingSource unique s then (updateOwned p.token (demote "source changed during build") s, .done false)
  else if s.rows.any p.token.owns then
    (replaceSources p.token.rollupId unique
      (updateOwned p.token (publish p.summary p.tokenCount p.fingerprint p.now) s), .done true)
  else if s.rows.any (fun r => r.rollupId = p.token.rollupId) then (s, .done false) else (s, .raised)

/-- The transaction of a drain over the events it has read. -/
def applyEvents (events : List Event) (dayBudget : Int) (s : Store) : Store × Result :=
  match drainEvents events dayBudget.toNat s.invalidations with
  | none => (s, .raised)
  | some plan => (staleKeys plan.keys { s with invalidations := plan.invalidations }, .count plan.days)

section Statements

variable (readIso : String → Option Int)

/-- One statement, and what the call returns if it was the last. -/
def System.step (s : System) : Act → System × Option Result
  | .transaction op =>
    if op.single then
      let r := RollupStore.step readIso s.store op
      ({ s with store := r.1 }, some r.2)
    else (s, none)
  | .markReady p =>
    match s.store.rows.find? p.token.owns with
    | none => (s, some (if s.store.rows.any (fun r => r.rollupId = p.token.rollupId) then .done false else .raised))
    | some owned => ({ s with calls := s.calls ++ [.leased p owned.key] }, none)
  | .drainInvalidations eventLimit dayBudget =>
    if eventLimit.toNat = 0 ∨ dayBudget.toNat = 0 then (s, some (.count 0))
    else ({ s with calls := s.calls ++ [.fetched (s.store.invalidations.take eventLimit.toNat) dayBudget] }, none)
  | .advance i =>
    match s.calls[i]? with
    | none => (s, none)
    | some (.leased p key) =>
      match window readIso key with
      | none => ({ s with calls := s.calls.eraseIdx i }, some .raised)
      | some bounds =>
        ({ s with calls := s.calls.set i (.tested p key (pendingMutation key.scope bounds s.store)) }, none)
    | some (.tested p _ pending) =>
      let r := settle p pending s.store
      (⟨r.1, s.calls.eraseIdx i⟩, some r.2)
    | some (.fetched events dayBudget) =>
      let r := applyEvents events dayBudget s.store
      (⟨r.1, s.calls.eraseIdx i⟩, some r.2)

def System.run (s : System) (acts : List Act) : System := acts.foldl (fun s act => (s.step readIso act).1) s

/-- The system before the statement at position `k`. -/
def systemAt (hasSummaryNodes : Bool) (acts : List Act) (k : Nat) : System :=
  System.run readIso { store := initial hasSummaryNodes } (acts.take k)

/-! ## Without anything in between -/

theorem eraseIdx_last {α : Type} (l : List α) (a : α) : (l ++ [a]).eraseIdx l.length = l := by
  rw [List.eraseIdx_append_of_length_le (Nat.le_refl _), Nat.sub_self, List.eraseIdx_cons_zero, List.append_nil]

theorem set_last {α : Type} (l : List α) (a b : α) : (l ++ [a]).set l.length b = l ++ [b] := by
  rw [List.set_append_right _ _ (Nat.le_refl _), Nat.sub_self, List.set_cons_zero]

/-- The statements of `mark_ready` one after the other are the call in one step. -/
theorem markReady_statements (s : System) (p : Publication) :
    s.run readIso [.markReady p, .advance s.calls.length, .advance s.calls.length] =
      { s with store := (markReady readIso p.token p.summary p.tokenCount p.sourceNodeIds
      p.fingerprint p.now s.store).1 } := by
  have hend : s.calls[s.calls.length]? = none := List.getElem?_eq_none (Nat.le_refl _)
  cases hfind : s.store.rows.find? p.token.owns with
  | none =>
    simp only [System.run, List.foldl_cons, List.foldl_nil, System.step, markReady, hfind, hend]
    split <;> rfl
  | some owned =>
    have hany : s.store.rows.any p.token.owns = true :=
      List.any_eq_true.mpr ⟨owned, List.mem_of_find?_eq_some hfind, List.find?_some hfind⟩
    cases hwindow : window readIso owned.key with
    | none =>
      simp only [System.run, List.foldl_cons, List.foldl_nil, System.step, markReady, hfind, hwindow,
        List.getElem?_concat_length, eraseIdx_last, hend]
    | some bounds =>
      simp only [System.run, List.foldl_cons, List.foldl_nil, System.step, markReady, hfind, hwindow,
        List.getElem?_concat_length, set_last, eraseIdx_last, settle, hany, if_true]

theorem drainInvalidations_statements (s : System) (eventLimit dayBudget : Int) :
    s.run readIso [.drainInvalidations eventLimit dayBudget, .advance s.calls.length] =
      { s with store := (drainInvalidations eventLimit dayBudget s.store).1 } := by
  have hend : s.calls[s.calls.length]? = none := List.getElem?_eq_none (Nat.le_refl _)
  simp only [System.run, List.foldl_cons, List.foldl_nil, System.step, drainInvalidations]
  by_cases h : eventLimit.toNat = 0 ∨ dayBudget.toNat = 0
  · simp only [if_pos h, hend]
  · cases hplan : drainEvents (s.store.invalidations.take eventLimit.toNat) dayBudget.toNat s.store.invalidations <;>
      simp only [if_neg h, List.getElem?_concat_length, eraseIdx_last, applyEvents, hplan]

/-! ## What a statement can do -/

/-- What a call in flight has read, when it is new to the calls. -/
inductive Fresh (s : System) : Call → Prop
  | leased (p : Publication) (row : Row) (hrow : row ∈ s.store.rows) (howns : p.token.owns row = true) :
      Fresh s (.leased p row.key)
  | tested (p : Publication) (key : Key) (bounds : Rat × Rat) (pending : Bool) (hcall : .leased p key ∈ s.calls)
      (hwindow : window readIso key = some bounds) (hpending : pendingMutation key.scope bounds s.store = pending) :
      Fresh s (.tested p key pending)
  | fetched (events : List Event) (dayBudget : Int) (hsub : ∀ x ∈ events, x ∈ s.store.invalidations) :
      Fresh s (.fetched events dayBudget)

variable {readIso} {s : System}

/-- A call under way after a step was so before, or has just begun. -/
theorem calls_step (act : Act) {call : Call} (h : call ∈ (s.step readIso act).1.calls) :
    call ∈ s.calls ∨ Fresh readIso s call := by
  cases act with
  | transaction op =>
    simp only [System.step] at h
    split at h <;> exact Or.inl h
  | markReady p =>
    simp only [System.step] at h
    split at h
    · exact Or.inl h
    · rename_i owned hfind
      refine (List.mem_append.mp h).imp_right (fun hnew => ?_)
      rw [List.mem_singleton.mp hnew]
      exact .leased p owned (List.mem_of_find?_eq_some hfind) (List.find?_some hfind)
  | drainInvalidations eventLimit dayBudget =>
    simp only [System.step] at h
    split at h
    · exact Or.inl h
    · refine (List.mem_append.mp h).imp_right (fun hnew => ?_)
      rw [List.mem_singleton.mp hnew]
      exact .fetched _ _ (fun x hx => List.mem_of_mem_take hx)
  | advance i =>
    simp only [System.step] at h
    split at h
    · exact Or.inl h
    · rename_i p key hcall
      split at h
      · exact Or.inl (List.mem_of_mem_eraseIdx h)
      · rename_i bounds hwindow
        refine (List.mem_or_eq_of_mem_set h).imp_right (fun hnew => ?_)
        rw [hnew]
        exact .tested p key bounds _ (List.mem_of_getElem? hcall) hwindow rfl
    · exact Or.inl (List.mem_of_mem_eraseIdx h)
    · exact Or.inl (List.mem_of_mem_eraseIdx h)

/-- A statement writes nothing, is a whole transaction, or ends a call. -/
theorem store_step (s : System) (act : Act) : (s.step readIso act).1.store = s.store ∨
    (∃ op, op.single = true ∧ (s.step readIso act).1.store = (step readIso s.store op).1) ∨
    (∃ p pending, (s.step readIso act).1.store = (settle p pending s.store).1) ∨
    ∃ events dayBudget, .fetched events dayBudget ∈ s.calls ∧
      (s.step readIso act).1.store = (applyEvents events dayBudget s.store).1 := by
  cases act with
  | transaction op =>
    simp only [System.step]
    split
    · rename_i hsingle
      exact Or.inr (Or.inl ⟨op, hsingle, rfl⟩)
    · exact Or.inl rfl
  | markReady p =>
    simp only [System.step]
    split <;> exact Or.inl rfl
  | drainInvalidations eventLimit dayBudget =>
    simp only [System.step]
    split <;> exact Or.inl rfl
  | advance i =>
    simp only [System.step]
    split
    · exact Or.inl rfl
    · split <;> exact Or.inl rfl
    · exact Or.inr (Or.inr (Or.inl ⟨_, _, rfl⟩))
    · rename_i hcall
      exact Or.inr (Or.inr (Or.inr ⟨_, _, List.mem_of_getElem? hcall, rfl⟩))

/-- The write of a publication: nothing, a demotion, or what makes it `ready`. -/
theorem settle_cases (p : Publication) (pending : Bool) (s : Store) :
    (settle p pending s).1 = s ∧ (settle p pending s).2 ≠ .done true ∨
    (∃ reason, (settle p pending s).1 = updateOwned p.token (demote reason) s) ∧ (settle p pending s).2 ≠ .done true ∨
    pending = false ∧ Owned s p.token ∧
    (settle p pending s).1 = replaceSources p.token.rollupId p.sourceNodeIds.eraseDups
      (updateOwned p.token (publish p.summary p.tokenCount p.fingerprint p.now) s) := by
  unfold settle
  dsimp only
  split
  · exact Or.inr (Or.inl ⟨⟨_, rfl⟩, by simp⟩)
  · rename_i hpending
    split
    · exact Or.inr (Or.inl ⟨⟨_, rfl⟩, by simp⟩)
    · split
      · rename_i howned
        exact Or.inr (Or.inr ⟨Bool.eq_false_iff.mpr hpending, List.any_eq_true.mp howned, rfl⟩)
      · split <;> exact Or.inl ⟨rfl, by simp⟩

theorem settle_outbox (p : Publication) (pending : Bool) (s : Store) :
    (settle p pending s).1.invalidations = s.invalidations ∧ (settle p pending s).1.nextEventId = s.nextEventId := by
  rcases settle_cases p pending s with ⟨h, -⟩ | ⟨⟨reason, h⟩, -⟩ | ⟨-, -, h⟩
  · rw [h]
    exact ⟨rfl, rfl⟩
  · rw [h]
    exact ⟨rfl, rfl⟩
  · rw [h]
    exact ⟨rfl, rfl⟩

/-- Over one statement ids are never reused and every row comes from a row. -/
theorem System.step_from (s : System) (act : Act) :
    s.store.nextRollupId ≤ (s.step readIso act).1.store.nextRollupId ∧
      ∀ row ∈ (s.step readIso act).1.store.rows, From s.store row := by
  have hself : s.store.nextRollupId ≤ s.store.nextRollupId ∧ ∀ row ∈ s.store.rows, From s.store row :=
    ⟨Nat.le_refl _, fun row h => From.self h⟩
  rcases @store_step readIso s act with h | ⟨op, -, h⟩ | ⟨p, pending, h⟩ | ⟨events, dayBudget, -, h⟩
  · rw [h]
    exact hself
  · rw [h]
    exact RollupStore.step_from readIso s.store op
  · rw [h]
    rcases settle_cases p pending s.store with ⟨h, -⟩ | ⟨⟨reason, h⟩, -⟩ | ⟨-, -, h⟩
    · rw [h]
      exact hself
    · rw [h]
      have hu : Advances (demote reason) :=
        advances_idle (fun _ => rfl) (fun _ => rfl) (fun _ => Nat.le_succ _) (idle_demote reason)
      exact ⟨Nat.le_refl _, fun row h => from_map hu h⟩
    · rw [h]
      have hu : Advances (publish p.summary p.tokenCount p.fingerprint p.now) :=
        advances_idle (fun _ => rfl) (fun _ => rfl) (fun _ => Nat.le_refl _) (fun r => ⟨rfl, by simp [publish]⟩)
      exact ⟨Nat.le_refl _, fun row h => from_map hu h⟩
  · rw [h]
    unfold applyEvents
    split
    · exact hself
    · rename_i plan _
      exact from_upsertKeys advances_stale plan.keys { s.store with invalidations := plan.invalidations }

/-- A statement appends events to the outbox, or drains events read before. -/
theorem System.step_outbox (s : System) (act : Act) :
    (∃ operation nodes, (s.step readIso act).1.store.invalidations = (announce operation nodes s.store).invalidations ∧
      (s.step readIso act).1.store.nextEventId = (announce operation nodes s.store).nextEventId) ∨
    ∃ events dayBudget plan, .fetched events dayBudget ∈ s.calls ∧
      drainEvents events dayBudget.toNat s.store.invalidations = some plan ∧
      (s.step readIso act).1.store = upsertKeys stale plan.keys
      { s.store with invalidations := plan.invalidations } := by
  have hnone : ∀ s' : Store, s'.invalidations = s.store.invalidations → s'.nextEventId = s.store.nextEventId →
      ∃ operation nodes, s'.invalidations = (announce operation nodes s.store).invalidations ∧
        s'.nextEventId = (announce operation nodes s.store).nextEventId := fun s' h1 h2 => ⟨.insert, [], h1, h2⟩
  rcases @store_step readIso s act with h | ⟨op, hsingle, h⟩ | ⟨p, pending, h⟩ | ⟨events, dayBudget, hcall, h⟩
  · exact Or.inl (hnone _ (by rw [h]) (by rw [h]))
  · rw [h]
    rcases RollupStore.step_outbox readIso s.store op with ⟨plan, limit, budget, rfl, -, -⟩ | ⟨operation, h1, h2⟩
    · cases hsingle
    · exact Or.inl ⟨operation, _, h1, h2⟩
  · left
    rw [h]
    exact hnone _ (settle_outbox p pending s.store).1 (settle_outbox p pending s.store).2
  · rw [h]
    unfold applyEvents
    split
    · exact Or.inl (hnone _ rfl rfl)
    · rename_i plan hplan
      exact Or.inr ⟨events, dayBudget, plan, hcall, hplan, rfl⟩

/-! ## What holds in every state -/

/-- A publication in flight, with the key it has read. -/
def Call.publication : Call → Option (Publication × Key)
  | .leased p key | .tested p key _ => some (p, key)
  | .fetched _ _ => none

/-- The key that the call has read is that of its row, while the row stands. -/
def Keyed (s : Store) (call : Call) : Prop :=
  ∀ p key, call.publication = some (p, key) → p.token.rollupId < s.nextRollupId ∧
    ∀ row ∈ s.rows, row.rollupId = p.token.rollupId → row.key = key

/-- What holds in every state of the system. -/
structure SystemInv (s : System) : Prop where
  ids : IdInv s.store
  events : EventInv s.store
  keyed : ∀ call ∈ s.calls, Keyed s.store call
  fetched : ∀ events dayBudget, .fetched events dayBudget ∈ s.calls → ∀ x ∈ events, x.eventId < s.store.nextEventId

theorem Keyed.from {store store' : Store} {call : Call} (h : Keyed store call)
    (hnext : store.nextRollupId ≤ store'.nextRollupId) (hfrom : ∀ row ∈ store'.rows, From store row) :
    Keyed store' call := by
  intro p key hp
  obtain ⟨hbelow, hrows⟩ := h p key hp
  refine ⟨Nat.lt_of_lt_of_le hbelow hnext, fun row hrow he => ?_⟩
  rcases hfrom row hrow with ⟨r, hr, hid, hkey, -, -⟩ | hnew
  · exact hkey.trans (hrows r hr (hid.symm.trans he))
  · omega

theorem Fresh.keyed (hinv : SystemInv s) {call : Call} (h : Fresh readIso s call) : Keyed s.store call := by
  cases h with
  | leased p row hrow howns =>
    intro p' key hp
    cases hp
    have hid := ((owns_iff p.token row).mp howns).1
    refine ⟨hid ▸ hinv.ids.below row hrow, fun row' hrow' he => ?_⟩
    rw [hinv.ids.unique hrow' hrow (he.trans hid.symm)]
  | tested p key bounds pending hcall hwindow hpending => exact fun p' key' hp => hinv.keyed _ hcall p' key' hp
  | fetched events dayBudget hsub => exact fun p key hp => by cases hp

theorem idInv_system (hinv : SystemInv s) (act : Act) : IdInv (s.step readIso act).1.store := by
  rcases @store_step readIso s act with h | ⟨op, -, h⟩ | ⟨p, pending, h⟩ | ⟨events, dayBudget, -, h⟩
  · rw [h]
    exact hinv.ids
  · rw [h]
    exact idInv_step readIso hinv.ids op
  · rw [h]
    rcases settle_cases p pending s.store with ⟨h, -⟩ | ⟨⟨reason, h⟩, -⟩ | ⟨-, -, h⟩
    · rw [h]
      exact hinv.ids
    · rw [h]
      exact idInv_updateOwned hinv.ids p.token (fun _ => rfl)
    · rw [h]
      have hp : IdInv (updateOwned p.token (publish p.summary p.tokenCount p.fingerprint p.now) s.store) :=
        idInv_updateOwned hinv.ids p.token (fun _ => rfl)
      exact idInv_same hp rfl rfl
  · rw [h]
    unfold applyEvents
    split
    · exact hinv.ids
    · exact idInv_upsertKeys stale_id _ _ (idInv_same hinv.ids rfl rfl)

/-- Every step of a process keeps the invariant. -/
theorem systemInv_step (hinv : SystemInv s) (act : Act) : SystemInv (s.step readIso act).1 := by
  have hevents : EventInv (s.step readIso act).1.store ∧
      s.store.nextEventId ≤ (s.step readIso act).1.store.nextEventId := by
    rcases @System.step_outbox readIso s act with ⟨operation, nodes, h1, h2⟩ | ⟨events, dayBudget, plan, -, hplan, h⟩
    · obtain ⟨hnodup, hbelow⟩ := eventInv_announce operation nodes s.store hinv.events
      exact ⟨⟨by rw [h1]; exact hnodup, by rw [h1, h2]; exact hbelow⟩,
        by rw [h2]; exact announce_next operation nodes _⟩
    · rw [h]
      have hout := upsertKeys_outbox stale plan.keys { s.store with invalidations := plan.invalidations }
      exact ⟨eventInv_drained hinv.events hplan, Nat.le_of_eq hout.2.symm⟩
  obtain ⟨hnext, hfrom⟩ := @System.step_from readIso s act
  refine ⟨idInv_system hinv act, hevents.1, fun call hcall => ?_, fun events dayBudget hcall x hx => ?_⟩
  · refine Keyed.from ?_ hnext hfrom
    exact (calls_step act hcall).elim (hinv.keyed call) (fun hfresh => hfresh.keyed hinv)
  · apply Nat.lt_of_lt_of_le _ hevents.2
    cases calls_step act hcall with
    | inl hold => exact hinv.fetched events dayBudget hold x hx
    | inr hfresh =>
      cases hfresh with
      | fetched events dayBudget hsub => exact hinv.events.below x (hsub x hx)

/-- The token tracks its key, and so does every publication under it. -/
structure Claimed (t : RollupBuildToken) (key : Key) (s : System) : Prop where
  tracks : Tracks t key s.store
  calls : ∀ call ∈ s.calls, ∀ p k, call.publication = some (p, k) → p.token = t → k = key

variable {t : RollupBuildToken} {key : Key}

theorem claimed_claim (hinv : SystemInv s) {now deadline nonce : String}
    (h : (s.step readIso (.transaction (.upsertBuilding key now deadline nonce))).2 = some (.token t)) :
    Claimed t key (s.step readIso (.transaction (.upsertBuilding key now deadline nonce))).1 := by
  have htoken : (step readIso s.store (.upsertBuilding key now deadline nonce)).2 = .token t := Option.some.inj h
  have hinv' := @systemInv_step readIso _ hinv (.transaction (.upsertBuilding key now deadline nonce))
  refine ⟨tracks_claim readIso hinv.ids htoken, fun call hcall p k hp ht => ?_⟩
  obtain ⟨row, hrow, hkey, hid, -⟩ := claim_row readIso htoken
  rw [← hkey]
  exact ((hinv'.keyed call hcall p k hp).2 row hrow (by rw [ht, hid])).symm

/-- Whatever a process does, the token keeps tracking its key. -/
theorem claimed_step (h : Claimed t key s) (act : Act) : Claimed t key (s.step readIso act).1 := by
  obtain ⟨hnext, hfrom⟩ := @System.step_from readIso s act
  refine ⟨h.tracks.from hnext hfrom, fun call hcall p k hp ht => ?_⟩
  cases calls_step act hcall with
  | inl hold => exact h.calls call hold p k hp ht
  | inr hfresh =>
    cases hfresh with
    | leased p' row hrow howns =>
      cases hp
      exact (h.tracks.row row hrow (ht ▸ ((owns_iff _ row).mp howns).1)).1
    | tested p' k' bounds pending hcall' hwindow hpending => exact h.calls _ hcall' p k hp ht
    | fetched events dayBudget hsub => cases hp

/-- The outbox holds the event for the day, and so does every copy of it. -/
def PendingIn (scope : String) (lo hi : Rat) (day : Int) (s : System) : Prop :=
  ∃ id, Pending scope lo hi day id s.store.invalidations ∧
    ∀ events dayBudget, .fetched events dayBudget ∈ s.calls → ∀ x ∈ events, x.eventId = id → Awaits scope lo hi day x

/-- A pending day stays pending until its periods are marked. -/
theorem pendingIn_step {scope : String} {lo hi : Rat} {day : Int} (hinv : SystemInv s) (hle : lo ≤ hi)
    (hnear : ¬ NearMidnight lo ∧ ¬ NearMidnight hi) (hday : utcDay lo ≤ day ∧ day ≤ utcDay hi)
    (h : PendingIn scope lo hi day s) (act : Act) : PendingIn scope lo hi day (s.step readIso act).1 ∨
      ∀ kind, Marks s.store (s.step readIso act).1.store (periodKey kind day scope) := by
  obtain ⟨id, hp, hcopies⟩ := h
  have hcopies' : ∀ events dayBudget, .fetched events dayBudget ∈ (s.step readIso act).1.calls →
      ∀ x ∈ events, x.eventId = id → Awaits scope lo hi day x := by
    intro events dayBudget hcall x hx hid
    cases calls_step act hcall with
    | inl hold => exact hcopies events dayBudget hold x hx hid
    | inr hfresh =>
      cases hfresh with
      | fetched events dayBudget hsub =>
        obtain ⟨e, he, heid, hawaits⟩ := hp
        rw [List.inj_on_of_nodup_map hinv.events.nodup (hsub x hx) he (hid.trans heid.symm)]
        exact hawaits
  rcases @System.step_outbox readIso s act with ⟨operation, nodes, h1, -⟩ | ⟨events, dayBudget, plan, hcall, hplan, h⟩
  · obtain ⟨e, he, heid, hawaits⟩ := hp
    refine Or.inl ⟨id, ⟨e, ?_, heid, hawaits⟩, hcopies'⟩
    rw [h1]
    exact mem_announce operation nodes s.store he
  · rw [h]
    cases drainEvents_pending hle hnear hday events _ _ plan (hcopies events dayBudget hcall) hp hplan with
    | inl hpend =>
      refine Or.inl ⟨id, ?_, hcopies'⟩
      rw [h, (upsertKeys_outbox stale plan.keys _).1]
      exact hpend
    | inr hkeys =>
      exact Or.inr (fun kind => marks_upsertKeys plan.keys { s.store with invalidations := plan.invalidations }
        (idInv_same hinv.ids rfl rfl) (hkeys kind))

theorem pendingIn_after (hinv : SystemInv s) {op : Op} {n : Node} (hn : n ∈ announced s.store op) (day : Int) :
    PendingIn n.sessionId n.coveredStart n.coveredEnd day (s.step readIso (.transaction op)).1 := by
  have hsingle : op.single = true := by
    cases op with
    | markReady | drainInvalidations => exact absurd hn (by simp [announced])
    | _ => rfl
  simp only [System.step, hsingle, if_true]
  rcases RollupStore.step_outbox readIso s.store op with ⟨plan, limit, budget, rfl, -, -⟩ | ⟨operation, h1, -⟩
  · cases hsingle
  · obtain ⟨id, hid, hp⟩ := pending_announce operation day _ s.store hn
    refine ⟨id, by rw [h1]; exact hp, fun events dayBudget hcall x hx he => ?_⟩
    have := hinv.fetched events dayBudget hcall x hx
    omega

end Statements

section Runs

variable {readIso : String → Option Int} {hasSummaryNodes : Bool} {acts : List Act}

theorem systemAt_succ {k : Nat} {act : Act} (h : acts[k]? = some act) :
    systemAt readIso hasSummaryNodes acts (k + 1) = ((systemAt readIso hasSummaryNodes acts k).step readIso act).1 :=
  foldl_take_succ h

theorem systemAt_induction {P : System → Prop} {i : Nat} (hi : P (systemAt readIso hasSummaryNodes acts i))
    (hstep : ∀ k act, i ≤ k → acts[k]? = some act → P (systemAt readIso hasSummaryNodes acts k) →
      P ((systemAt readIso hasSummaryNodes acts k).step readIso act).1) :
    ∀ j, i ≤ j → P (systemAt readIso hasSummaryNodes acts j) :=
  foldl_take_induction hi hstep

theorem systemInv_systemAt (k : Nat) : SystemInv (systemAt readIso hasSummaryNodes acts k) := by
  apply systemAt_induction (i := 0) _ (fun k act _ _ h => systemInv_step h act) k (Nat.zero_le k)
  refine ⟨⟨?_, ?_⟩, ⟨?_, ?_⟩, ?_, ?_⟩ <;> simp [systemAt, System.run, initial]

theorem claimed_systemAt {i j : Nat} {key : Key} {now deadline nonce : String} {t : RollupBuildToken}
    (hi : acts[i]? = some (.transaction (.upsertBuilding key now deadline nonce)))
    (ht : ((systemAt readIso hasSummaryNodes acts i).step readIso
      (.transaction (.upsertBuilding key now deadline nonce))).2 = some (.token t))
    (hij : i < j) : Claimed t key (systemAt readIso hasSummaryNodes acts j) := by
  apply systemAt_induction (i := i + 1) _ (fun k act _ _ h => claimed_step h act) j hij
  rw [systemAt_succ hi]
  exact claimed_claim (systemInv_systemAt i) ht

/-- After a mutation its days are pending until they are marked. -/
theorem pending_or_marked {m : Nat} {op : Op} {n : Node} {day : Int} (hop : acts[m]? = some (.transaction op))
    (hn : n ∈ announced (systemAt readIso hasSummaryNodes acts m).store op)
    (hnear : ¬ NearMidnight n.coveredStart ∧ ¬ NearMidnight n.coveredEnd)
    (hday : utcDay n.coveredStart ≤ day ∧ day ≤ utcDay n.coveredEnd) {j : Nat} (hj : m < j) :
    PendingIn n.sessionId n.coveredStart n.coveredEnd day (systemAt readIso hasSummaryNodes acts j) ∨
      ∃ k, m < k ∧ k < j ∧ ∀ kind, Marks (systemAt readIso hasSummaryNodes acts k).store
        (systemAt readIso hasSummaryNodes acts (k + 1)).store (periodKey kind day n.sessionId) := by
  have hle : n.coveredStart ≤ n.coveredEnd := le_trans (min_le_left _ _) (le_max_left _ _)
  induction j, hj using Nat.le_induction with
  | base =>
    left
    rw [Nat.succ_eq_add_one, systemAt_succ hop]
    exact pendingIn_after (systemInv_systemAt m) hn day
  | succ j hj ih =>
    cases ih with
    | inr hm =>
      obtain ⟨k, h1, h2, hk⟩ := hm
      exact Or.inr ⟨k, h1, Nat.lt_succ_of_lt h2, hk⟩
    | inl hp =>
      cases hact : acts[j]? with
      | none =>
        have hsame : systemAt readIso hasSummaryNodes acts (j + 1) = systemAt readIso hasSummaryNodes acts j :=
          foldl_take_none hact
        rw [hsame]
        exact Or.inl hp
      | some act =>
        have h := @pendingIn_step readIso _ _ _ _ _ (systemInv_systemAt j) hle hnear hday hp act
        rw [← systemAt_succ hact] at h
        exact h.imp_right (fun hk => ⟨j, hj, Nat.lt_succ_self j, hk⟩)

/-- A publication that has seen a clean outbox since the mutation has lost its row. -/
theorem lost_of_tested {m i : Nat} {op : Op} {n : Node} {kind : PeriodKind} {day : Int} {now deadline nonce : String}
    {t : RollupBuildToken} (hop : acts[m]? = some (.transaction op))
    (hn : n ∈ announced (systemAt readIso hasSummaryNodes acts m).store op)
    (hnear : ¬ NearMidnight n.coveredStart ∧ ¬ NearMidnight n.coveredEnd) (him : i < m)
    (hi : acts[i]? = some (.transaction (.upsertBuilding (periodKey kind day n.sessionId) now deadline nonce)))
    (ht : ((systemAt readIso hasSummaryNodes acts i).step readIso
      (.transaction (.upsertBuilding (periodKey kind day n.sessionId) now deadline nonce))).2 = some (.token t))
    (hmeet : Intersects kind (periodStart kind day) n.coveredStart n.coveredEnd)
    (hclean : ∀ p key, p.token = t → .tested p key false ∉ (systemAt readIso hasSummaryNodes acts m).calls)
    {j : Nat} (hmj : m < j) : ∀ p key, p.token = t →
      .tested p key false ∈ (systemAt readIso hasSummaryNodes acts j).calls →
      Lost t (systemAt readIso hasSummaryNodes acts j).store := by
  have hclaimed : ∀ {k}, m < k → Claimed t (periodKey kind day n.sessionId) (systemAt readIso hasSummaryNodes acts k) :=
    fun hk => claimed_systemAt hi ht (Nat.lt_trans him hk)
  have hle : n.coveredStart ≤ n.coveredEnd := le_trans (min_le_left _ _) (le_max_left _ _)
  apply systemAt_induction (i := m + 1)
    (P := fun s => ∀ p key, p.token = t → .tested p key false ∈ s.calls → Lost t s.store)
    _ _ j hmj
  · intro p key hp hcall
    rw [systemAt_succ hop] at hcall
    simp only [System.step] at hcall
    split at hcall <;> exact absurd hcall (hclean p key hp)
  · intro k act hk hact ih p key hp hcall
    refine Lost.from (hclaimed hk).tracks ?_ ((systemAt readIso hasSummaryNodes acts k).step_from act).2
    cases calls_step act hcall with
    | inl hold => exact ih p key hp hold
    | inr hfresh =>
      cases hfresh with
      | tested p key bounds pending hleased hwindow hpending =>
        rw [(hclaimed hk).calls _ hleased p key rfl hp] at hwindow hpending
        obtain ⟨d, hd1, hd2, hd3⟩ := exists_day_of_intersects hle (periodStart_idem kind day) hmeet
        cases pending_or_marked hop hn hnear ⟨hd1, hd2⟩ hk with
        | inl hin =>
          -- the overlap test sees the event
          obtain ⟨id, ⟨e, he, -, hawaits⟩, -⟩ := hin
          apply absurd hpending
          rw [Bool.not_eq_false]
          refine List.any_eq_true.mpr ⟨e, he, ?_⟩
          rw [window_iso readIso hwindow]
          simp [hawaits.scope, hawaits.coveredStart, hawaits.coveredEnd, periodKey, hmeet.1, hmeet.2]
        | inr hm =>
          -- a drain has taken the generation from the token
          obtain ⟨l, hl1, hl2, hmarks⟩ := hm
          have hmark := hmarks kind
          rw [periodKey, hd3, ← periodKey] at hmark
          apply systemAt_induction (P := fun s => Lost t s.store) (i := l + 1)
            (lost_of_marks (hclaimed (Nat.lt_succ_of_lt hl1)).tracks hmark) _ k hl2
          intro l' act' hl' _ hlost
          exact hlost.from (hclaimed (by omega)).tracks ((systemAt readIso hasSummaryNodes acts l').step_from act').2

end Runs

/-- A mutation whose bounds do not lie just before a midnight supersedes every
build of a period it meets that was claimed before it and has not passed its
pending test yet. Once the outbox of its scope is empty, each period it meets
has been marked stale or seeded since. -/
theorem superseded_not_published (readIso : String → Option Int) (hasSummaryNodes : Bool) (acts : List Act) (m : Nat)
    (op : Op) (n : Node) (hop : acts[m]? = some (.transaction op))
    (hn : n ∈ announced (systemAt readIso hasSummaryNodes acts m).store op)
    (hnear : ¬ NearMidnight n.coveredStart ∧ ¬ NearMidnight n.coveredEnd) :
    (∀ (i j c : Nat) (kind : PeriodKind) (day : Int) (now deadline nonce : String) (t : RollupBuildToken)
        (p : Publication) (key : Key) (pending : Bool),
      i < m → acts[i]? = some (.transaction (.upsertBuilding (periodKey kind day n.sessionId) now deadline nonce)) →
      ((systemAt readIso hasSummaryNodes acts i).step readIso
        (.transaction (.upsertBuilding (periodKey kind day n.sessionId) now deadline nonce))).2 = some (.token t) →
      Intersects kind (periodStart kind day) n.coveredStart n.coveredEnd →
      (∀ p key, p.token = t → .tested p key false ∉ (systemAt readIso hasSummaryNodes acts m).calls) →
      m < j → acts[j]? = some (.advance c) → p.token = t →
      (systemAt readIso hasSummaryNodes acts j).calls[c]? = some (.tested p key pending) →
      ((systemAt readIso hasSummaryNodes acts j).step readIso (.advance c)).2 ≠ some (.done true) ∧
      ((systemAt readIso hasSummaryNodes acts (j + 1)).store = (systemAt readIso hasSummaryNodes acts j).store ∨
        ∃ reason, (systemAt readIso hasSummaryNodes acts (j + 1)).store =
          updateOwned t (demote reason) (systemAt readIso hasSummaryNodes acts j).store)) ∧
    (∀ j : Nat, m < j → (∀ e ∈ (systemAt readIso hasSummaryNodes acts j).store.invalidations, e.scope ≠ n.sessionId) →
      ∀ (kind : PeriodKind) (start : Int), periodStart kind start = start →
        Intersects kind start n.coveredStart n.coveredEnd →
        ∃ k, m < k ∧ k < j ∧ Marks (systemAt readIso hasSummaryNodes acts k).store
          (systemAt readIso hasSummaryNodes acts (k + 1)).store ⟨kind, .iso start, n.sessionId⟩) := by
  have hle : n.coveredStart ≤ n.coveredEnd := le_trans (min_le_left _ _) (le_max_left _ _)
  constructor
  · rintro i j c kind day now deadline nonce t p key pending him hi ht hmeet hclean hmj hj rfl hcall
    have hstep : (systemAt readIso hasSummaryNodes acts j).step readIso (.advance c) =
        (⟨(settle p pending (systemAt readIso hasSummaryNodes acts j).store).1,
          (systemAt readIso hasSummaryNodes acts j).calls.eraseIdx c⟩,
          some (settle p pending (systemAt readIso hasSummaryNodes acts j).store).2) := by
      simp only [System.step, hcall]
    rw [systemAt_succ hj, hstep]
    rcases settle_cases p pending (systemAt readIso hasSummaryNodes acts j).store with
      ⟨hsame, hfail⟩ | ⟨⟨reason, hdemote⟩, hfail⟩ | ⟨rfl, howned, -⟩
    · exact ⟨fun h => hfail (Option.some.inj h), Or.inl hsame⟩
    · exact ⟨fun h => hfail (Option.some.inj h), Or.inr ⟨reason, hdemote⟩⟩
    · have hlost := lost_of_tested hop hn hnear him hi ht hmeet hclean hmj p key rfl (List.mem_of_getElem? hcall)
      exact absurd howned hlost.not_owned
  · intro j hmj hempty kind start hstart hmeet
    obtain ⟨d, hd1, hd2, hd3⟩ := exists_day_of_intersects hle hstart hmeet
    cases pending_or_marked hop hn hnear ⟨hd1, hd2⟩ hmj with
    | inl hp =>
      obtain ⟨id, ⟨e, he, -, hawaits⟩, -⟩ := hp
      exact absurd hawaits.scope (hempty e he)
    | inr hm =>
      obtain ⟨k, hk1, hk2, hmarks⟩ := hm
      have hmark := hmarks kind
      rw [periodKey, hd3] at hmark
      exact ⟨k, hk1, hk2, hmark⟩

/-- A node lands on the fourth of October 2024, the outbox is drained and the
day is claimed. -/
def claimed : List Act :=
  [.transaction (.insertNode ⟨1, "s", 1728003600, none, none⟩), .drainInvalidations 256 256, .advance 0,
    .transaction (.upsertBuilding (periodKey .day 739163 "s") "t0" "t9" "a")]

def ofNodeOne : Publication := ⟨⟨1, 1, "a"⟩, "of node 1", 1, [1], "f", "t1"⟩

def insertSecond (createdAt : Rat) : Act := .transaction (.insertNode ⟨2, "s", createdAt, none, none⟩)

theorem superseded_at_noon :
    ((systemAt (fun _ => none) true (claimed ++ [insertSecond 1728043200, .markReady ofNodeOne, .advance 0, .advance 0])
      7).step (fun _ => none) (.advance 0)).2 ≠ some (.done true) :=
  ((superseded_not_published (fun _ => none) true
    (claimed ++ [insertSecond 1728043200, .markReady ofNodeOne, .advance 0, .advance 0]) 4
    (.insertNode ⟨2, "s", 1728043200, none, none⟩) ⟨2, "s", 1728043200, none, none⟩ rfl (by decide +kernel)
    (by decide +kernel)).1 3 7 0 .day 739163 "t0" "t9" "a" ⟨1, 1, "a"⟩ ofNodeOne (periodKey .day 739163 "s") true
    (by decide) rfl (by decide +kernel) (by decide +kernel)
    (fun p key _ h => by
      have hnone : (systemAt (fun _ => none) true
        (claimed ++ [insertSecond 1728043200, .markReady ofNodeOne, .advance 0, .advance 0]) 4).calls = [] := by
        decide +kernel
      rw [hnone] at h
      cases h) (by decide) rfl rfl (by decide +kernel)).1

/-- The run publishes at its last position although the node of position `m`,
which the day's claim has not seen, lies in the day. -/
def PublishedOver (createdAt : Rat) (m : Nat) (acts : List Act) : Prop :=
  acts[m]? = some (insertSecond createdAt) ∧
    ⟨2, "s", createdAt, none, none⟩ ∈
      announced (systemAt (fun _ => none) true acts m).store (.insertNode ⟨2, "s", createdAt, none, none⟩) ∧
    acts[3]? = some (.transaction (.upsertBuilding (periodKey .day 739163 "s") "t0" "t9" "a")) ∧
    ((systemAt (fun _ => none) true acts 3).step (fun _ => none)
      (.transaction (.upsertBuilding (periodKey .day 739163 "s") "t0" "t9" "a"))).2 = some (.token ofNodeOne.token) ∧
    Intersects .day (periodStart .day 739163) createdAt createdAt ∧
    ((systemAt (fun _ => none) true acts (acts.length - 1)).step (fun _ => none) (.advance 0)).2 = some (.done true)

/-- A node of the last quarter microsecond of the day is dated to the next day,
so the drain leaves the row alone. A node of noon that commits after the pending
test is not seen at all. -/
theorem published_over_mutation :
    PublishedOver (1728086400 - 1 / 4194304) 4 (claimed ++ [insertSecond (1728086400 - 1 / 4194304),
      .drainInvalidations 256 256, .advance 0, .markReady ofNodeOne, .advance 0, .advance 0]) ∧
    PublishedOver 1728043200 6
    (claimed ++ [.markReady ofNodeOne, .advance 0, insertSecond 1728043200, .advance 0]) := by
  unfold PublishedOver
  decide +kernel

end RollupStore
