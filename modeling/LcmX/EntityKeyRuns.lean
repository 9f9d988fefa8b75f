import LcmX.EntityKeys

/-!
# The key table over whole runs

An override keeps the derivation of its slot as a retired shadow. An undo
restores the row from before and then replaces it by the newest derivation where
the two differ.
-/
namespace EntityStore

open ChangeLog Fallible Draft

/-! ## The derived rows of an owner -/

/-- An active override with sources: the retired rows of the slot count. -/
def shadowed (s : Store) (subject : String) (owner : EntityId) : Bool :=
  s.keys.any (fun o => o.subjectKey = subject && o.ownerEntityId = some owner && o.method = .override &&
    o.retiredAt = none && o.sourceStoreIds ≠ [])

variable {subject : String} {owner : EntityId}

theorem shadowed_iff {s : Store} : shadowed s subject owner = true ↔
    ∃ k ∈ s.keys, k.slot = (subject, some owner) ∧ k.method = .override ∧ k.retiredAt = none ∧
      k.sourceStoreIds ≠ [] := by
  simp [shadowed, KeyRow.slot, and_assoc]

/-- The derived rows of a slot, the active one first, then the newest. -/
inductive Derived (s : Store) (subject : String) (owner : EntityId) : Prop
  | active {a : KeyRow} (ha : a ∈ s.keys) (hnone : a.retiredAt = none) (hderives : a.derives subject owner = true)
      (hhead : (ownerAliasRows s subject owner).head? = some a)
  | shadow (hnone : ∀ a ∈ s.keys, a.retiredAt = none → a.derives subject owner = false)
      (hshadowed : shadowed s subject owner = true)
      (hhead : (ownerAliasRows s subject owner).head?.map KeyRow.derivation = newest s.keys subject owner)
  | empty (hnone : ∀ a ∈ s.keys, a.retiredAt = none → a.derives subject owner = false)
      (hshadowed : shadowed s subject owner = false)
      (hnil : ownerAliasRows s subject owner = [])

theorem ownerAliasRows_eq (s : Store) (subject : String) (owner : EntityId) : ownerAliasRows s subject owner =
    ((s.keys.filter (fun r => r.derives subject owner)).filter (fun r => r.retiredAt = none)).reverse ++
      ((s.keys.filter (fun r => r.derives subject owner)).filter
      (fun r => r.retiredAt ≠ none && shadowed s subject owner)).reverse :=
  rfl

theorem mem_ownerAliasRows {s : Store} {r : KeyRow} :
    r ∈ ownerAliasRows s subject owner ↔
      r ∈ s.keys ∧ r.derives subject owner = true ∧ (r.retiredAt = none ∨ shadowed s subject owner = true) := by
  rw [ownerAliasRows_eq]
  simp only [List.mem_append, List.mem_reverse, List.mem_filter, decide_eq_true_eq, Bool.and_eq_true, ne_eq]
  by_cases h : r.retiredAt = none
  · simp [h]
  · simp [h, and_assoc]

/-- A slot has an active derived row, a shadow of one, or none. -/
theorem derived_cases (s : Store) (subject : String) (owner : EntityId) : Derived s subject owner := by
  have heq := ownerAliasRows_eq s subject owner
  cases hactive : ((s.keys.filter (fun r => r.derives subject owner)).filter (fun r => r.retiredAt = none)).reverse with
  | cons a rest =>
    have ha : a ∈ ((s.keys.filter (fun r => r.derives subject owner)).filter
        (fun r => r.retiredAt = none)).reverse := by
      rw [hactive]
      exact List.mem_cons_self
    rw [List.mem_reverse, List.mem_filter, List.mem_filter, decide_eq_true_eq] at ha
    refine .active ha.1.1 ha.2 ha.1.2 ?_
    rw [heq, hactive]
    rfl
  | nil =>
    have hnone : ∀ a ∈ s.keys, a.retiredAt = none → a.derives subject owner = false := by
      intro a ha hretired
      rw [← Bool.not_eq_true]
      intro hderives
      have hin : a ∈ ((s.keys.filter (fun r => r.derives subject owner)).filter
          (fun r => r.retiredAt = none)).reverse := by
        rw [List.mem_reverse, List.mem_filter, List.mem_filter]
        exact ⟨⟨ha, hderives⟩, by simpa using hretired⟩
      rw [hactive] at hin
      cases hin
    rw [hactive, List.nil_append] at heq
    cases hshadowed : shadowed s subject owner with
    | true =>
      refine .shadow hnone hshadowed ?_
      have hall : (s.keys.filter (fun r => r.derives subject owner)).filter
        (fun r => r.retiredAt ≠ none && shadowed s subject owner) =
          s.keys.filter (fun r => r.derives subject owner) := by
        rw [List.filter_eq_self]
        intro r hr
        rw [List.mem_filter] at hr
        have hretired : r.retiredAt ≠ none := fun h => by
          rw [hnone r hr.1 h] at hr
          exact Bool.false_ne_true hr.2
        simp [hretired, hshadowed]
      rw [heq, hall, newest, List.head?_reverse, List.getLast?_map]
    | false =>
      refine .empty hnone hshadowed ?_
      rw [heq]
      simp [hshadowed]

/-- The first of the derived rows says what the newest one says. -/
theorem UpToDate.head {s : Store} (h : UpToDate s) {l : KeyRow}
    (hhead : (ownerAliasRows s subject owner).head? = some l) : l.derives subject owner = true ∧
      ∃ n, newest s.keys subject owner = some n ∧ SameDerivation n l.derivation := by
  have hl := mem_ownerAliasRows.mp (List.mem_of_mem_head? hhead)
  refine ⟨hl.2.1, ?_⟩
  cases derived_cases s subject owner with
  | active ha hnone hderives hhead' =>
    rw [hhead'] at hhead
    cases hhead
    exact h _ ha hnone subject owner hderives
  | shadow hnone hshadowed hhead' =>
    rw [hhead, Option.map_some] at hhead'
    exact ⟨_, hhead'.symm, .refl _⟩
  | empty hnone hshadowed hnil =>
    rw [hnil] at hhead
    cases hhead

/-! ## Runs of calls -/

/-- The key changes of an event are those of a global override, in its slot. -/
def KeysLogged (s : Store) (p : Payload) : Prop := ∀ ch, FieldChange.key ch ∈ p.changes → ∃ o, p.override = some o ∧
  o.globalOverride = true ∧ ∃ r ∈ s.keys, r.keyId = ch.id ∧ r.slot = (o.subjectKey, o.ownerEntityId)

theorem KeysLogged.grow {s t : Store} {p : Payload} (h : KeysLogged s p) (hgrow : KeysGrow s t) : KeysLogged t p := by
  intro ch hch
  obtain ⟨o, ho, hglobal, r, hr, hid, hslot⟩ := h ch hch
  obtain ⟨r', hr', hid', hslot'⟩ := hgrow r hr
  exact ⟨o, ho, hglobal, r', hr', hid'.trans hid, hslot'.trans hslot⟩

structure KeyInv (s : Store) : Prop where
  tables : KeyTables s
  upToDate : UpToDate s
  logged : ∀ e ∈ s.events, e.op ≠ .undo → ∀ p, e.payload = some p → KeysLogged s p

variable {c : Context} {s : Store} {d d' : Draft}

theorem KeyInv.kept (h : KeyInv s) : KeysKept s s := ⟨h.tables, h.upToDate, .refl s⟩

/-- The event of a call other than an undo. -/
theorem KeyInv.commit (h : KeyInv s) (hkept : KeysKept s d.store) (hevents : d.store.events = s.events) (name : OpName)
    (hlogged : KeysLogged d.store d.payload) : KeyInv (appendEvent name d.payload none d.store) := by
  refine ⟨⟨hkept.tables.ids, hkept.tables.below, hkept.tables.active⟩, hkept.upToDate, ?_⟩
  intro e he hop p hp
  rcases List.mem_append.mp he with he | he
  · rw [hevents] at he
    exact (h.logged e he hop p hp).grow hkept.grows
  · cases List.mem_singleton.mp he
    cases hp
    exact hlogged

theorem Act.keys_same {env : Env} {w : Writes} (hw : ¬ w.keys) (h : Act env w d d') : d'.store.keys = d.store.keys ∧
    d'.store.nextKey = d.store.nextKey ∧ ∀ ch, FieldChange.key ch ∈ d'.payload.changes →
      FieldChange.key ch ∈ d.payload.changes := by
  cases h with
  | log p hcreated hchanges htouches htouched hoverride => exact ⟨rfl, rfl, fun ch hch => hchanges ▸ hch⟩
  | entity row hfresh hfield => exact ⟨rfl, rfl, fun ch hch => hch⟩
  | aliasRow row hid hfield hindex hvisible => exact ⟨rfl, rfl, fun ch hch => hch⟩
  | note row hfresh hfield => exact ⟨rfl, rfl, fun ch hch => hch⟩
  | writeEntity row v hrow hwrite => exact ⟨rfl, rfl, fun ch hch => (mem_snoc hch).resolve_right (by simp)⟩
  | writeAlias row v hrow hindex hwrite => exact ⟨rfl, rfl, fun ch hch => (mem_snoc hch).resolve_right (by simp)⟩
  | writeNote row v hrow => exact ⟨rfl, rfl, fun ch hch => (mem_snoc hch).resolve_right (by simp)⟩
  | keys keys nextKey ticks p hcreated hchanges htouches htouched hwrite => exact absurd hwrite hw

theorem Acts.keys_same {env : Env} {w : Writes} (hw : ¬ w.keys) (h : Acts env w d d') : d'.store.keys = d.store.keys ∧
    d'.store.nextKey = d.store.nextKey ∧ ∀ ch, FieldChange.key ch ∈ d'.payload.changes →
      FieldChange.key ch ∈ d.payload.changes := by
  induction h with
  | refl => exact ⟨rfl, rfl, fun ch hch => hch⟩
  | tail _ hact ih =>
    obtain ⟨hkeys, hnext, hlog⟩ := hact.keys_same hw
    exact ⟨hkeys.trans ih.1, hnext.trans ih.2.1, fun ch hch => ih.2.2 ch (hlog ch hch)⟩

theorem KeysKept.same (h : KeysKept s d.store) (hkeys : d'.store.keys = d.store.keys)
    (hnext : d'.store.nextKey = d.store.nextKey) :
    KeysKept s d'.store := by
  refine ⟨⟨?_, ?_, ?_⟩, ?_, ?_⟩
  · rw [hkeys]
    exact h.tables.ids
  · rw [hkeys, hnext]
    exact h.tables.below
  · rw [hkeys]
    exact h.tables.active
  · rw [UpToDate, hkeys]
    exact h.upToDate
  · rw [KeysGrow, hkeys]
    exact h.grows

/-! ## Overrides -/

/-- A global override at work on its slot. -/
structure Overriding (s : Store) (o : Override) (d : Draft) : Prop where
  kept : KeysKept s d.store
  override : d.payload.override = some o
  changes : ∀ ch, FieldChange.key ch ∈ d.payload.changes → ∃ r ∈ d.store.keys, r.keyId = ch.id ∧
    r.slot = (o.subjectKey, o.ownerEntityId)

/-- An override keeps its account over one slot. -/
theorem Overriding.slot {o : Override} (h : Overriding s o d) {row : KeyRow} (hrow : row ∈ s.keys)
    (hslot : row.slot = (o.subjectKey, o.ownerEntityId))
    (hrun : overrideSlot c o.subjectKey o.ownerEntityId d row = .ok d') :
    Overriding s o d' := by
  rw [overrideSlot, bind_ok] at hrun
  obtain ⟨mid, hmid, hrun⟩ := hrun
  obtain ⟨found, hfound, hid, -, hstore, hchanges, hoverride⟩ := projectKey_ok hmid
  have hmidKept := h.kept.retire hmid
  -- The row that is retired has the slot of the row that was read.
  have hfoundSlot : found.slot = (o.subjectKey, o.ownerEntityId) := by
    obtain ⟨r, hr, hrid, hrslot⟩ := h.kept.grows row hrow
    rw [h.kept.tables.key_unique hfound hr (hid.trans hrid.symm), hrslot, hslot]
  have hmidOverriding : Overriding s o mid := by
    refine ⟨hmidKept, hoverride.trans h.override, fun ch hch => ?_⟩
    have hgrow : KeysGrow d.store mid.store := by
      rw [hstore]
      exact keysGrow_write _ _ _
    rw [hchanges] at hch
    rcases mem_snoc hch with hch | hch
    · obtain ⟨r, hr, hrid, hrslot⟩ := h.changes ch hch
      obtain ⟨r', hr', hrid', hrslot'⟩ := hgrow r hr
      exact ⟨r', hr', hrid'.trans hrid, hrslot'.trans hrslot⟩
    · cases hch
      obtain ⟨r', hr', hrid', hrslot'⟩ := hgrow found hfound
      exact ⟨r', hr', hrid'.trans hid, hrslot'.trans hfoundSlot⟩
  split at hrun
  · simp only [bind_ok] at hrun
    obtain ⟨last, hlast, t, ht, hrun⟩ := hrun
    cases hrun
    obtain ⟨-, hlastStore, hlastChanges, hlastOverride⟩ := newKey_ok hlast
    obtain ⟨-, rfl⟩ := setKeyRetired_ok ht
    have hlastKept := hmidKept.insert hlast
    have hin : ({ row with
        keyId := mid.store.nextKey, subjectKey := o.subjectKey, ownerEntityId :=
          o.ownerEntityId, retiredAt := none } : KeyRow) ∈
          last.store.keys := by
      rw [hlastStore]
      exact List.mem_append_right _ (List.mem_singleton.mpr rfl)
    have hgrow : KeysGrow mid.store
        { last.store with keys := keyColumn.write mid.store.nextKey (some (c.now last.ticks)) last.store.keys } := by
      refine KeysGrow.trans ?_ (keysGrow_write _ _ _)
      rw [hlastStore]
      exact keysGrow_append _ _ _
    refine ⟨⟨hlastKept.tables.write hin (by simp), hlastKept.upToDate.retire _ (by simp),
      hlastKept.grows.trans (keysGrow_write _ _ _)⟩, ?_, ?_⟩
    · exact hlastOverride.trans hmidOverriding.override
    · intro ch hch
      obtain ⟨r, hr, hrid, hrslot⟩ := hmidOverriding.changes ch (hlastChanges ▸ hch)
      obtain ⟨r', hr', hrid', hrslot'⟩ := hgrow r hr
      exact ⟨r', hr', hrid'.trans hrid, hrslot'.trans hrslot⟩
  · cases hrun
    exact hmidOverriding

theorem touchEntities_payload (ids : List (Option EntityId)) : ∀ d : Draft, (d.touchEntities ids).store = d.store ∧
    (d.touchEntities ids).payload.changes = d.payload.changes ∧
    (d.touchEntities ids).payload.override = d.payload.override := by
  induction ids with
  | nil => exact fun _ => ⟨rfl, rfl, rfl⟩
  | cons id ids ih =>
    intro d
    obtain ⟨hstore, hchanges, hoverride⟩ := ih (d.touchEntity id)
    cases id with
    | none => exact ⟨hstore, hchanges, hoverride⟩
    | some id => exact ⟨hstore, hchanges, hoverride⟩

/-- The draft of an override before it writes. -/
theorem overriding_start (h : KeyInv s) (o : Override) (ids : List (Option EntityId)) (key : String × Option EntityId) :
    (((({ store := s, payload := { override := some o } } : Draft).touchEntities ids).touchKey key).store = s) ∧
      Overriding s o ((({ store := s, payload := { override := some o } } : Draft).touchEntities
        ids).touchKey key) := by
  obtain ⟨hstore, hchanges, hoverride⟩ := touchEntities_payload ids { store := s, payload := { override := some o } }
  refine ⟨hstore, ⟨?_, hoverride, fun ch hch => ?_⟩⟩
  · change KeysKept s (({ store := s, payload := { override := some o } } : Draft).touchEntities ids).store
    rw [hstore]
    exact h.kept
  · change FieldChange.key ch ∈ (({ store := s, payload := { override := some o } } :
      Draft).touchEntities ids).payload.changes at hch
    rw [hchanges] at hch
    cases hch

/-- Overriding a key keeps the key rows and logs what it changes. -/
theorem overrideKey_kept (h : KeyInv s) {id : EntityId} {scope : Option (List Int)} {owner : Option EntityId}
    (hrun : overrideKey c subject id scope owner { store := s } = .ok d) : KeysKept s d.store ∧
      KeysLogged d.store d.payload := by
  rw [overrideKey, keyHeld_ok] at hrun
  simp only [overrideKeyBody, bind_ok] at hrun
  obtain ⟨target, -, hrun⟩ := hrun
  split at hrun
  · cases hrun
  · simp only [bind_ok] at hrun
    obtain ⟨entity, -, hrun⟩ := hrun
    split at hrun
    · cases hrun
    · simp only [bind_ok] at hrun
      obtain ⟨_, -, view, -, hrun⟩ := hrun
      split at hrun
      · cases hrun
      · split at hrun
        · cases hrun
        · simp only [bind_ok] at hrun
          obtain ⟨current, -, hrun⟩ := hrun
          generalize hcited : citedSources s _ subject owner scope = cited at hrun
          have hstart : ∀ global, ∃ d0 : Draft, d0 = (({
              store := s, payload := { override := some ⟨subject, target, owner, cited, global⟩ } } :
                Draft).touchEntities
                [some target, owner]).touchKey (subject, owner) ∧ d0.store = s ∧
                  Overriding s ⟨subject, target, owner, cited, global⟩ d0 :=
            fun global => ⟨_, rfl, overriding_start h _ _ _⟩
          obtain ⟨d0, hd0, hstore, hstart⟩ := hstart (decide (scope = none))
          rw [← hd0] at hrun
          split at hrun
          · rename_i hglobal
            simp only [bind_ok] at hrun
            obtain ⟨mid, hmid, hrun⟩ := hrun
            have hmoved := foldlM_invariant (P := Overriding s ⟨subject, target, owner, cited, decide (scope = none)⟩)
              (fun row hrow _ _ ha hb => ?_) hstart hmid
            · obtain ⟨-, hstore', hchanges, hoverride⟩ := newKey_ok hrun
              refine ⟨hmoved.kept.insert hrun, fun ch hch => ?_⟩
              obtain ⟨r, hr, hid, hslot⟩ := hmoved.changes ch (hchanges ▸ hch)
              refine ⟨_, hoverride.trans hmoved.override, by simpa using hglobal, r, ?_, hid, hslot⟩
              rw [hstore']
              exact List.mem_append_left _ hr
            · rw [hstore, List.mem_filter] at hrow
              have hslot : row.slot = (subject, owner) := by
                simpa [sameSlot, KeyRow.slot] using hrow.2
              exact ha.slot (List.mem_filter.mp hrow.1).1 hslot hb
          · cases hrun
            refine ⟨hstart.kept, fun ch hch => ?_⟩
            subst hd0
            obtain ⟨-, hchanges, -⟩ := touchEntities_payload [some target, owner]
              { store := s, payload := { override := some ⟨subject, target, owner, cited, decide (scope = none)⟩ } }
            change FieldChange.key ch ∈ (Draft.touchEntities _ [some target, owner]).payload.changes at hch
            rw [hchanges] at hch
            cases hch

end EntityStore
