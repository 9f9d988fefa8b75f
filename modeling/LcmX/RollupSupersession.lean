import LcmX.RollupInvalidation

/-!
# What supersedes a build

A mutation is pending until a pass marks the rows of its days, and the token of
a marked row has lost its generation for good.
-/
namespace RollupStore

open Gregorian

/-! ## Marking rows -/

/-- Between the two stores the row of the key has been marked stale with a new
generation, or seeded. -/
def Marks (s s' : Store) (key : Key) : Prop :=
  (∃ row ∈ s'.rows, row.key = key) ∧
    ∀ row ∈ s'.rows, row.key = key →
      row.status = .stale ∧ ∀ old ∈ s.rows, old.rollupId = row.rollupId → old.generation < row.generation

theorem marks_upsertRow {s : Store} (hid : IdInv s) (key : Key) :
    Marks s (upsertRow key (seeded key) stale s) key := by
  unfold upsertRow
  split
  · rename_i hany
    obtain ⟨r0, hr0, hk0⟩ := List.any_eq_true.mp hany
    have hk0' : r0.key = key := by simpa using hk0
    constructor
    · exact ⟨stale r0, List.mem_map.mpr ⟨r0, hr0, if_pos hk0'⟩, hk0'⟩
    · intro row hrow hkey
      obtain ⟨r, hr, rfl⟩ := List.mem_map.mp hrow
      by_cases hk : r.key = key
      · rw [if_pos hk]
        refine ⟨rfl, fun old hold he => ?_⟩
        rw [hid.unique hold hr he]
        exact Nat.lt_succ_self _
      · rw [if_neg hk] at hkey
        exact absurd hkey hk
  · rename_i hany
    constructor
    · exact ⟨seeded key s.nextRollupId, List.mem_append_right _ (List.mem_singleton.mpr rfl), rfl⟩
    · intro row hrow hkey
      cases List.mem_append.mp hrow with
      | inl hr => exact absurd (List.any_eq_true.mpr ⟨row, hr, by simpa using hkey⟩) hany
      | inr hr =>
        rw [List.mem_singleton.mp hr]
        refine ⟨rfl, fun old hold he => ?_⟩
        have hlt := hid.below old hold
        rw [he] at hlt
        exact absurd hlt (Nat.lt_irrefl _)

/-- No row is lost by an upsert, and its generation does not fall. -/
theorem upsertRow_keeps (key : Key) (fresh : Nat → Row) {update : Row → Row} (hu : Advances update) {s : Store}
    {old : Row} (h : old ∈ s.rows) : ∃ row ∈ (upsertRow key fresh update s).rows,
      row.rollupId = old.rollupId ∧ old.generation ≤ row.generation := by
  unfold upsertRow
  split
  · by_cases hk : old.key = key
    · exact ⟨update old, List.mem_map.mpr ⟨old, h, if_pos hk⟩, hu.id old, hu.generation old⟩
    · exact ⟨old, List.mem_map.mpr ⟨old, h, if_neg hk⟩, rfl, Nat.le_refl _⟩
  · exact ⟨old, List.mem_append_left _ h, rfl, Nat.le_refl _⟩

theorem mem_upsertRow_key_ne {key : Key} {update : Row → Row} (hu : Advances update) {s : Store} {row : Row}
    (h : row ∈ (upsertRow key (seeded key) update s).rows) (hne : row.key ≠ key) : row ∈ s.rows := by
  rcases mem_upsertRow h with hs | ⟨r, -, hk, rfl⟩ | rfl
  · exact hs
  · exact absurd ((hu.key r).trans hk) hne
  · exact absurd rfl hne

/-- A row whose key is not among the keys is left as it is. -/
theorem mem_upsertKeys_iff {update : Row → Row} (hu : Advances update) {row : Row} (keys : List Key) :
    ∀ s : Store, row.key ∉ keys → (row ∈ (upsertKeys update keys s).rows ↔ row ∈ s.rows) := by
  induction keys with
  | nil => exact fun _ _ => Iff.rfl
  | cons key keys ih =>
    intro s hk
    rw [List.mem_cons, not_or] at hk
    have h := ih (upsertRow key (seeded key) update s) hk.2
    exact h.trans ⟨fun hm => mem_upsertRow_key_ne hu hm hk.1, fun hm => upsertRow_key_ne hm hk.1⟩

theorem marks_upsertKeys {key : Key} (keys : List Key) : ∀ s : Store, IdInv s → key ∈ keys →
    Marks s (upsertKeys stale keys s) key := by
  induction keys with
  | nil => exact fun _ _ h => absurd h (by simp)
  | cons head keys ih =>
    intro s hid hk
    have hid' : IdInv (upsertRow head (seeded head) stale s) := idInv_upsertRow hid (fun _ => rfl) stale_id
    by_cases hin : key ∈ keys
    · -- a later upsert marks the row, and the head does not lower its generation
      obtain ⟨hex, hall⟩ := ih (upsertRow head (seeded head) stale s) hid' hin
      refine ⟨hex, fun row hrow hkey => ?_⟩
      obtain ⟨hst, hgen⟩ := hall row hrow hkey
      refine ⟨hst, fun old hold he => ?_⟩
      obtain ⟨mid, hmid, hmid1, hmid2⟩ := upsertRow_keeps head (seeded head) advances_stale hold
      exact Nat.lt_of_le_of_lt hmid2 (hgen mid hmid (hmid1.trans he))
    · have hhead : key = head := (List.mem_cons.mp hk).resolve_right hin
      subst hhead
      obtain ⟨⟨row0, hrow0, hkey0⟩, hall⟩ := marks_upsertRow hid key
      have hsame : ∀ row : Row, row.key = key → (row ∈ (upsertKeys stale (key :: keys) s).rows ↔
          row ∈ (upsertRow key (seeded key) stale s).rows) := fun row hrk =>
        mem_upsertKeys_iff advances_stale keys _ (hrk ▸ hin)
      exact ⟨⟨row0, (hsame row0 hkey0).mpr hrow0, hkey0⟩, fun row hrow hrk => hall row ((hsame row hrk).mp hrow) hrk⟩

/-! ## The outbox along a run -/

/-- The node versions a transaction announces. -/
def announced (s : Store) : Op → List Node
  | .insertNode n => if s.nodes.any (fun x => x.nodeId = n.nodeId) then [] else [n]
  | .deleteNode nodeId => (s.nodes.find? (fun x => x.nodeId = nodeId)).toList
  | .updateNode n =>
    match s.nodes.find? (fun x => x.nodeId = n.nodeId) with
    | none => []
    | some old => [old, n]
  | _ => []

def announce (operation : Mutation) (nodes : List Node) (s : Store) : Store :=
  nodes.foldl (fun s n => appendEvent n operation s) s

theorem eventInv_announce (operation : Mutation) (nodes : List Node) : ∀ s : Store, EventInv s →
    EventInv (announce operation nodes s) := by
  induction nodes with
  | nil => exact fun _ h => h
  | cons n nodes ih =>
    intro s h
    apply ih
    constructor
    · simp only [appendEvent, List.map_append, List.map_cons, List.map_nil, List.nodup_append]
      refine ⟨h.nodup, by simp, ?_⟩
      intro a ha b hb
      obtain ⟨e, he, rfl⟩ := List.mem_map.mp ha
      have := h.below e he
      rw [List.mem_singleton] at hb
      omega
    · intro e he
      cases List.mem_append.mp he with
      | inl he => exact Nat.lt_succ_of_lt (h.below e he)
      | inr he =>
        rw [List.mem_singleton.mp he]
        exact Nat.lt_succ_self _

theorem announce_next (operation : Mutation) (nodes : List Node) : ∀ s : Store,
    s.nextEventId ≤ (announce operation nodes s).nextEventId := by
  induction nodes with
  | nil => exact fun _ => Nat.le_refl _
  | cons n nodes ih => exact fun s => Nat.le_of_succ_le (ih (appendEvent n operation s))

theorem mem_announce (operation : Mutation) {e : Event} (nodes : List Node) : ∀ s : Store, e ∈ s.invalidations →
    e ∈ (announce operation nodes s).invalidations := by
  induction nodes with
  | nil => exact fun _ h => h
  | cons n nodes ih => exact fun s h => ih _ (List.mem_append_left _ h)

/-- What is announced is pending for every day, under an id that is new. -/
theorem pending_announce (operation : Mutation) {n : Node} (day : Int) (nodes : List Node) : ∀ s : Store, n ∈ nodes →
    ∃ id, s.nextEventId ≤ id ∧
      Pending n.sessionId n.coveredStart n.coveredEnd day id (announce operation nodes s).invalidations := by
  induction nodes with
  | nil => exact fun _ h => absurd h (by simp)
  | cons head nodes ih =>
    intro s h
    cases List.mem_cons.mp h with
    | inl he =>
      subst he
      have hin := mem_announce operation nodes (appendEvent n operation s)
        (List.mem_append_right _ (List.mem_singleton.mpr rfl))
      exact ⟨s.nextEventId, Nat.le_refl _, _, hin, rfl, rfl, rfl, rfl, fun next hn => by cases hn⟩
    | inr ht =>
      obtain ⟨id, hid, hp⟩ := ih (appendEvent head operation s) ht
      exact ⟨id, Nat.le_of_succ_le hid, hp⟩

theorem drainEvents_ids (events : List Event) : ∀ (remaining : Nat) (outbox : List Event) (plan : DrainPlan),
    drainEvents events remaining outbox = some plan →
    (plan.invalidations.map Event.eventId).Sublist (outbox.map Event.eventId) := by
  induction events with
  | nil =>
    intro remaining outbox plan h
    rw [drainEvents, Option.some.injEq] at h
    rw [← h]
  | cons x rest ih =>
    intro remaining outbox plan h
    have hdrop : ((dropEvent x outbox).map Event.eventId).Sublist (outbox.map Event.eventId) :=
      List.filter_sublist.map Event.eventId
    obtain ⟨y, -, hcases⟩ := drainEvents_cons h
    rcases hcases with ⟨-, rfl | ⟨p, hp, rfl⟩⟩ | rfl
    · exact hdrop
    · exact (ih _ _ p hp).trans hdrop
    · have hsame : (resumeEvent x y.next outbox).map Event.eventId = outbox.map Event.eventId := by
        rw [resumeEvent, List.map_map]
        apply List.map_congr_left
        intro e _
        by_cases he : e.eventId = x.eventId
        · simp [he]
        · simp [he]
      rw [hsame]

theorem upsertKeys_outbox (update : Row → Row) (keys : List Key) : ∀ s : Store,
    (upsertKeys update keys s).invalidations = s.invalidations ∧
      (upsertKeys update keys s).nextEventId = s.nextEventId := by
  induction keys with
  | nil => exact fun _ => ⟨rfl, rfl⟩
  | cons key keys ih =>
    intro s
    have h := ih (upsertRow key (seeded key) update s)
    have hhead : (upsertRow key (seeded key) update s).invalidations = s.invalidations ∧
        (upsertRow key (seeded key) update s).nextEventId = s.nextEventId := by
      unfold upsertRow
      split <;> exact ⟨rfl, rfl⟩
    exact ⟨h.1.trans hhead.1, h.2.trans hhead.2⟩

/-- What a drain pass that plans something does. -/
def Drains (s : Store) (op : Op) (plan : DrainPlan) (s' : Store) : Prop :=
  ∃ eventLimit dayBudget : Int, op = .drainInvalidations eventLimit dayBudget ∧
    drainEvents (s.invalidations.take eventLimit.toNat) dayBudget.toNat s.invalidations = some plan ∧
    s' = upsertKeys stale plan.keys { s with invalidations := plan.invalidations }

section Steps

variable (readIso : String → Option Int)

/-- A transaction drains the outbox, or appends what it announces. -/
theorem step_outbox (s : Store) (op : Op) :
    (∃ plan, Drains s op plan (step readIso s op).1) ∨
      ∃ operation, (step readIso s op).1.invalidations = (announce operation (announced s op) s).invalidations ∧
        (step readIso s op).1.nextEventId = (announce operation (announced s op) s).nextEventId := by
  have hsame : ∀ s' : Store, s'.invalidations = s.invalidations → s'.nextEventId = s.nextEventId → announced s op = [] →
      ∃ operation, s'.invalidations = (announce operation (announced s op) s).invalidations ∧
        s'.nextEventId = (announce operation (announced s op) s).nextEventId := fun s' h1 h2 h3 =>
    ⟨.insert, by rw [h3]; exact h1, by rw [h3]; exact h2⟩
  cases op with
  | drainInvalidations eventLimit dayBudget =>
    simp only [step, drainInvalidations]
    split
    · exact Or.inr (hsame s rfl rfl rfl)
    · split
      · exact Or.inr (hsame s rfl rfl rfl)
      · rename_i plan hplan
        exact Or.inl ⟨plan, eventLimit, dayBudget, rfl, hplan, rfl⟩
  | insertNode n =>
    right
    refine ⟨.insert, ?_⟩
    simp only [step, insertNode, announced]
    split <;> exact ⟨rfl, rfl⟩
  | deleteNode nodeId =>
    right
    refine ⟨.delete, ?_⟩
    simp only [step, deleteNode, announced]
    cases s.nodes.find? (fun x => x.nodeId = nodeId) with
    | none => exact ⟨rfl, rfl⟩
    | some old => exact ⟨rfl, rfl⟩
  | updateNode n =>
    right
    refine ⟨.update, ?_⟩
    simp only [step, updateNode, announced]
    cases s.nodes.find? (fun x => x.nodeId = n.nodeId) with
    | none => exact ⟨rfl, rfl⟩
    | some old => exact ⟨rfl, rfl⟩
  | upsertBuilding key now deadline nonce =>
    right
    simp only [step, upsertBuilding, upsertRow]
    split <;> split <;> exact hsame _ rfl rfl rfl
  | markReady token summary tokenCount ids fingerprint now =>
    right
    simp only [step, markReady]
    split
    · split <;> exact hsame _ rfl rfl rfl
    · split
      · exact hsame _ rfl rfl rfl
      · split
        · exact hsame _ rfl rfl rfl
        · split <;> exact hsame _ rfl rfl rfl
  | resolveNoSource token =>
    right
    simp only [step, resolveNoSource]
    split <;> exact hsame _ rfl rfl rfl
  | markStaleForDay day scope =>
    right
    simp only [step, markStaleForDay]
    split
    · exact hsame s rfl rfl rfl
    · exact hsame _ (upsertKeys_outbox stale _ s).1 (upsertKeys_outbox stale _ s).2 rfl
  | staleAggregatesForDay day scope =>
    right
    simp only [step, staleAggregatesForDay]
    split
    · exact hsame s rfl rfl rfl
    · exact hsame _ (upsertKeys_outbox stale _ s).1 (upsertKeys_outbox stale _ s).2 rfl
  | upsertStale targets =>
    right
    simp only [step, upsertStale]
    split
    · exact hsame s rfl rfl rfl
    · exact hsame _ (upsertKeys_outbox seedUpdate _ s).1 (upsertKeys_outbox seedUpdate _ s).2 rfl
  | markFailed | deferIncomplete | reclaimStaleBuilding | purgeRollupsForSources => exact Or.inr (hsame _ rfl rfl rfl)

variable {s : Store} {key : Key} {t : RollupBuildToken}

theorem eventInv_drained {events : List Event} {n : Nat} {plan : DrainPlan} (h : EventInv s)
    (hplan : drainEvents events n s.invalidations = some plan) :
    EventInv (upsertKeys stale plan.keys { s with invalidations := plan.invalidations }) := by
  have hsub := drainEvents_ids _ _ _ _ hplan
  have hout := upsertKeys_outbox stale plan.keys { s with invalidations := plan.invalidations }
  constructor
  · rw [hout.1]
    exact hsub.nodup h.nodup
  · rw [hout.1, hout.2]
    intro e he
    obtain ⟨e0, he0, hid⟩ := List.mem_map.mp (hsub.subset (List.mem_map_of_mem he))
    rw [← hid]
    exact h.below e0 he0

/-- An operation keeps the event ids distinct and below the next one. -/
theorem eventInv_step (h : EventInv s) (op : Op) : EventInv (step readIso s op).1 := by
  cases step_outbox readIso s op with
  | inl hd =>
    obtain ⟨plan, eventLimit, dayBudget, -, hplan, hs'⟩ := hd
    rw [hs']
    exact eventInv_drained h hplan
  | inr ha =>
    obtain ⟨operation, h1, h2⟩ := ha
    obtain ⟨hnodup, hbelow⟩ := eventInv_announce operation (announced s op) s h
    exact ⟨by rw [h1]; exact hnodup, by rw [h1, h2]; exact hbelow⟩

/-! ## Tokens -/

/-- The rows with the token's id have its key, and no smaller generation. -/
structure Tracks (t : RollupBuildToken) (key : Key) (s : Store) : Prop where
  below : t.rollupId < s.nextRollupId
  row : ∀ row ∈ s.rows, row.rollupId = t.rollupId → row.key = key ∧ t.generation ≤ row.generation

/-- No row is being built under the token. -/
def Lost (t : RollupBuildToken) (s : Store) : Prop :=
  ∀ row ∈ s.rows, row.rollupId = t.rollupId → row.generation = t.generation → row.status ≠ .building

theorem claim_row {now deadline nonce : String}
    (h : (step readIso s (.upsertBuilding key now deadline nonce)).2 = .token t) :
    ∃ row ∈ (step readIso s (.upsertBuilding key now deadline nonce)).1.rows, row.key = key ∧
      row.rollupId = t.rollupId ∧ row.generation = t.generation := by
  revert h
  simp only [step, upsertBuilding]
  split
  · rename_i row hfind
    intro h
    cases h
    exact ⟨row, List.mem_of_find?_eq_some hfind, by simpa using List.find?_some hfind, rfl, rfl⟩
  · intro h
    cases h

theorem tracks_claim {now deadline nonce : String} (hid : IdInv s)
    (h : (step readIso s (.upsertBuilding key now deadline nonce)).2 = .token t) :
    Tracks t key (step readIso s (.upsertBuilding key now deadline nonce)).1 := by
  have hid' := idInv_step readIso hid (.upsertBuilding key now deadline nonce)
  obtain ⟨row, hrow, hkey, hrid, hgen⟩ := claim_row readIso h
  refine ⟨hrid ▸ hid'.below row hrow, fun row' hrow' he => ?_⟩
  rw [hid'.unique hrow' hrow (he.trans hrid.symm)]
  exact ⟨hkey, Nat.le_of_eq hgen.symm⟩

theorem Tracks.from {s' : Store} (h : Tracks t key s) (hnext : s.nextRollupId ≤ s'.nextRollupId)
    (hfrom : ∀ row ∈ s'.rows, From s row) : Tracks t key s' := by
  refine ⟨Nat.lt_of_lt_of_le h.below hnext, fun row hrow he => ?_⟩
  rcases hfrom row hrow with ⟨r, hr, hid, hkey, hgen, -⟩ | hnew
  · obtain ⟨h1, h2⟩ := h.row r hr (hid.symm.trans he)
    exact ⟨hkey.trans h1, Nat.le_trans h2 hgen⟩
  · have := h.below
    omega

/-- A lost token stays lost: a row is only ever built again under a larger
generation. -/
theorem Lost.from {s' : Store} (ht : Tracks t key s) (h : Lost t s) (hfrom : ∀ row ∈ s'.rows, From s row) :
    Lost t s' := by
  intro row hrow he hgen hst
  rcases hfrom row hrow with ⟨r, hr, hid, -, -, hb⟩ | hnew
  · have htr := (ht.row r hr (hid.symm.trans he)).2
    cases hb hst with
    | inl hsame =>
      subst hsame
      exact h row hr he hgen hst
    | inr hlt => omega
  · have := ht.below
    omega

theorem Lost.not_owned (h : Lost t s) : ¬ Owned s t := by
  rintro ⟨row, hrow, howns⟩
  obtain ⟨hid, hgen, -, hst⟩ := (owns_iff t row).mp howns
  exact h row hrow hid hgen hst

theorem lost_of_marks {s' : Store} (ht : Tracks t key s') (h : Marks s s' key) :
    Lost t s' := by
  intro row hrow he _ hst
  have := (h.2 row hrow (ht.row row hrow he).1).1
  rw [hst] at this
  cases this

theorem window_iso {kind : PeriodKind} {start : Int} {scope : String} {bounds : Rat × Rat}
    (h : window readIso ⟨kind, .iso start, scope⟩ = some bounds) :
    bounds = (dayInstant start, dayInstant (periodEnd kind start)) := by
  simp only [window, fromIsoformat] at h
  split at h
  · cases h
  · rename_i day hday
    split at hday
    · cases hday
      split at h
      · exact (Option.some.inj h).symm
      · cases h
    · cases hday

end Steps

theorem eventInv_stateAt {readIso : String → Option Int} {hasSummaryNodes : Bool} {ops : List Op} (k : Nat) :
    EventInv (stateAt readIso hasSummaryNodes ops k) := by
  apply stateAt_induction (P := EventInv) (i := 0) _ _ k (Nat.zero_le k)
  · exact ⟨by simp [stateAt, run, initial], by simp [stateAt, run, initial]⟩
  · exact fun k op _ _ h => eventInv_step readIso h op

end RollupStore
