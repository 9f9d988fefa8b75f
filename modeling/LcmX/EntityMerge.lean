import LcmX.EntityInverse
import LcmX.Lib.ParentChain

/-!
# The merge graph

A merged entity is held by the merge that made it so: an event that stands,
touches the entity it leads to and is newer than the event that made that
entity. So that event cannot be undone before the merge is.
-/
namespace EntityStore

open ChangeLog Fallible Draft ParentChain

/-! ## Canonical entities -/

theorem canonicalFrom_ok {entities : List Entity} (n : Nat) : ∀ {key k : EntityId},
    canonicalFrom entities n key = .ok k → ∃ row, findEntity entities k = some row ∧ row.mergedInto = none := by
  induction n with
  | zero =>
    intro key k h
    cases h
  | succ n ih =>
    intro key k h
    rw [canonicalFrom] at h
    split at h
    · cases h
    · rename_i row hrow
      split at h
      · rename_i hnone
        cases h
        exact ⟨row, hrow, hnone⟩
      · exact ih h

theorem canonical_ok {entities : List Entity} {key k : EntityId} (h : canonical entities key = .ok k) :
    ∃ row ∈ entities, row.entityId = k ∧ row.mergedInto = none := by
  unfold canonical at h
  split at h
  · obtain ⟨row, hfind, hnone⟩ := canonicalFrom_ok _ h
    obtain ⟨hmem, hid⟩ := findEntity_some hfind
    exact ⟨row, hmem, hid, hnone⟩
  · cases h

def parentOf (entities : List Entity) (id : EntityId) : Option EntityId :=
  (findEntity entities id).bind Entity.mergedInto

theorem findEntity_mem {entities : List Entity} {id : EntityId} (h : id ∈ entities.map Entity.entityId) :
    ∃ row, findEntity entities id = some row := by
  obtain ⟨row, hrow, hid⟩ := List.mem_map.mp h
  cases hf : findEntity entities id with
  | none => exact absurd (List.find?_eq_none.mp hf row hrow) (by simp [hid])
  | some r => exact ⟨r, rfl⟩

/-- Inside a closed set of entities the loop finds the root or stops at the bound. -/
theorem canonicalFrom_root {entities : List Entity}
    (hclosed : ∀ id ∈ entities.map Entity.entityId, ∀ k, parentOf entities id = some k →
      k ∈ entities.map Entity.entityId)
    (n : Nat) : ∀ {id k : EntityId}, id ∈ entities.map Entity.entityId → root (parentOf entities) n id = some k →
      canonicalFrom entities n id = .ok k := by
  induction n with
  | zero =>
    intro id k _ h
    cases h
  | succ n ih =>
    intro id k hid h
    obtain ⟨row, hrow⟩ := findEntity_mem hid
    have hparent : parentOf entities id = row.mergedInto := by rw [parentOf, hrow, Option.bind_some]
    rw [root, hparent] at h
    rw [canonicalFrom, hrow]
    cases hm : row.mergedInto with
    | none =>
      rw [hm] at h
      cases h
      simp [hm]
    | some into =>
      rw [hm] at h hparent
      simp only [hm]
      exact ih (hclosed id hid into hparent) h

/-! ## The invariant -/

theorem mergedInto_of_get {row : Entity} {v : Status × Option EntityId} (h : entityColumn.get row = v) :
    row.mergedInto = v.2 := by
  rw [← h]
  rfl

/-- The event that holds the entity at the entity it leads to. -/
structure Holds (s : Store) (id into : EntityId) (m : Event) (p : Payload) : Prop where
  mem : m ∈ s.events
  op : m.op ≠ .undo
  standing : m.eventId ∉ undone s
  payload : m.payload = some p
  touched : into ∈ p.touches.entities
  changed : id ∈ (entityLog p.changes).map Change.id
  newer : ∀ x ∈ s.events, ∀ q, x.payload = some q → into ∈ q.created.entities → x.eventId < m.eventId

def Edge (s : Store) (a b : EntityId) : Prop := ∃ row ∈ s.entities, row.entityId = a ∧ row.mergedInto = some b

structure MergeInv (s : Store) : Prop where
  before : ∀ e ∈ s.events, e.op ≠ .undo → ∀ p, e.payload = some p → ∀ ch ∈ entityLog p.changes,
    ch.before = (.active, none)
  touched : ∀ e ∈ s.events, ∀ p, e.payload = some p → p.created.entities ⊆ p.touches.entities
  rows : ∀ row ∈ s.entities, entityColumn.get row = (.active, none) ∨
    ∃ into, entityColumn.get row = (.merged, some into) ∧ into ∈ s.entities.map Entity.entityId ∧
      into ∉ voided Created.entities s ∧ ∃ m p, Holds s row.entityId into m p
  acyclic : Acyclic (Edge s)

/-- What was held stays held, unless the step undoes the holder or makes the
entity it leads to void. -/
theorem Holds.append {s s' : Store} {e : Event} {q : Payload} {id into : EntityId} {m : Event} {p : Payload}
    (h : Holds s id into m p) (happ : Appends s s' e) (hq : e.payload = some q) (hfresh : into ∉ q.created.entities)
    (hstanding : m.eventId ∉ undone s') : Holds s' id into m p where
  mem := happ.mem.mpr (Or.inl h.mem)
  op := h.op
  standing := hstanding
  payload := h.payload
  touched := h.touched
  changed := h.changed
  newer := by
    intro x hx r hr hin
    rcases happ.mem.mp hx with hx | rfl
    · exact h.newer x hx r hr hin
    · rw [hq] at hr
      cases hr
      exact absurd hin hfresh

theorem Act.created_touched {env : Env} {w : Writes} {d d' : Draft} (hact : Act env w d d')
    (h : d.payload.created.entities ⊆ d.payload.touches.entities) :
    d'.payload.created.entities ⊆ d'.payload.touches.entities := by
  cases hact with
  | log p hcreated hchanges htouches htouched hoverride =>
    rw [hcreated]
    exact List.Subset.trans h htouches
  | entity row hfresh hfield =>
    intro x hx
    rcases List.mem_append.mp hx with hx | hx
    · exact mem_push.mpr (Or.inl (h hx))
    · exact mem_push.mpr (Or.inr (List.mem_singleton.mp hx))
  | aliasRow row hid hfield hindex hvisible => exact h
  | note row hfresh hfield => exact h
  | writeEntity row v hrow hw => exact h
  | writeAlias row v hrow hindex hw => exact h
  | writeNote row v hrow => exact h
  | keys keys nextKey ticks p hcreated hchanges htouches htouched hw =>
    obtain ⟨l, hl⟩ := hcreated
    rw [hl]
    exact List.Subset.trans h htouches

theorem Acts.created_touched {env : Env} {w : Writes} {s : Store} {d : Draft} (hacts : Acts env w { store := s } d) :
    d.payload.created.entities ⊆ d.payload.touches.entities := by
  induction hacts with
  | refl => exact List.nil_subset _
  | tail _ hact ih => exact hact.created_touched ih

/-- The entities an operation makes are new. -/
theorem Draft.Derived.created_fresh {s : Store} {d : Draft} (hd : d.Derived s) (hs : Tables s) {id : EntityId}
    (hid : id ∈ s.entities.map Entity.entityId) : id ∉ d.payload.created.entities := by
  intro hin
  have hnodup := hd.entities.nodup hs.entityIds
  rw [hd.entities.map_key] at hnodup
  exact (List.nodup_append.mp hnodup).2.2 id hid id hin rfl

/-! ## Operations that leave the graph -/

theorem Act.grows {env : Env} {w : Writes} (hw : ∀ id v, ¬ w.entity id v) {s : Store} {d d' : Draft}
    (hact : Act env w d d')
    (h : (∃ made, d.store.entities = s.entities ++ made ∧ ∀ r ∈ made, entityColumn.get r = (.active, none)) ∧
      entityLog d.payload.changes = []) :
    (∃ made, d'.store.entities = s.entities ++ made ∧ ∀ r ∈ made, entityColumn.get r = (.active, none)) ∧
      entityLog d'.payload.changes = [] := by
  cases hact with
  | log p hcreated hchanges htouches htouched hoverride => exact ⟨h.1, hchanges ▸ h.2⟩
  | entity row hfresh hfield =>
    obtain ⟨⟨made, hmade, hfields⟩, hlog⟩ := h
    refine ⟨⟨made ++ [row], ?_, ?_⟩, hlog⟩
    · rw [← List.append_assoc, ← hmade]
      rfl
    · intro r hr
      rcases List.mem_append.mp hr with hr | hr
      · exact hfields r hr
      · exact List.mem_singleton.mp hr ▸ hfield
  | aliasRow row hid hfield hindex hvisible => exact h
  | note row hfresh hfield => exact h
  | writeEntity row v hrow hwrite => exact absurd hwrite (hw _ _)
  | writeAlias row v hrow hindex hw => exact ⟨h.1, (entityLog_snoc d.payload.changes _).trans h.2⟩
  | writeNote row v hrow => exact ⟨h.1, (entityLog_snoc d.payload.changes _).trans h.2⟩
  | keys keys nextKey ticks p hcreated hchanges htouches htouched hw => exact ⟨h.1, (logs_key _ _ hchanges).1.trans h.2⟩

/-- Without writes of entities the table only grows. -/
theorem Acts.grows {env : Env} {w : Writes} (hw : ∀ id v, ¬ w.entity id v) {s : Store} {d : Draft}
    (hacts : Acts env w { store := s } d) :
    (∃ made, d.store.entities = s.entities ++ made ∧ ∀ r ∈ made, entityColumn.get r = (.active, none)) ∧
      entityLog d.payload.changes = [] := by
  induction hacts with
  | refl => exact ⟨⟨[], by simp, by simp⟩, rfl⟩
  | tail _ hact ih => exact hact.grows hw ih

/-- The parts of the invariant about the events. -/
theorem mergeInv_events {env : Env} {w : Writes} {s : Store} (h : MergeInv s) {d : Draft} (hd : d.Derived s)
    (hacts : Acts env w { store := s } d) (name : OpName) (target : Option Nat)
    (hbefore : name ≠ .undo → ∀ ch ∈ entityLog d.payload.changes, ch.before = (.active, none)) :
    (∀ e ∈ (appendEvent name d.payload target d.store).events, e.op ≠ .undo → ∀ p, e.payload = some p →
      ∀ ch ∈ entityLog p.changes, ch.before = (.active, none)) ∧
    (∀ e ∈ (appendEvent name d.payload target d.store).events, ∀ p, e.payload = some p →
      p.created.entities ⊆ p.touches.entities) := by
  have happ := appends_appendEvent hd name target
  constructor
  · intro e he hop p hp
    rcases happ.mem.mp he with he | rfl
    · exact h.before e he hop p hp
    · cases hp
      exact hbefore hop
  · intro e he p hp
    rcases happ.mem.mp he with he | rfl
    · exact h.touched e he p hp
    · cases hp
      exact hacts.created_touched

/-- An event that writes no entity keeps the merge graph. -/
theorem mergeInv_grow {env : Env} {w : Writes} (hw : ∀ id v, ¬ w.entity id v) {s : Store} (hs : WellFormed s)
    (h : MergeInv s) {d : Draft} (hacts : Acts env w { store := s } d) {name : OpName} (hname : name ≠ .undo) :
    MergeInv (appendEvent name d.payload none d.store) := by
  have hd := hacts.derived hs.tables
  have happ := appends_appendEvent hd name none
  obtain ⟨⟨made, hmade, hfields⟩, hlog⟩ := hacts.grows hw
  have hentities : (appendEvent name d.payload none d.store).entities = s.entities ++ made := hmade
  obtain ⟨hbefore, htouched⟩ := mergeInv_events h hd hacts name none
    (fun _ ch hch => absurd (hlog ▸ hch) (by simp))
  refine ⟨hbefore, htouched, ?_, ?_⟩
  · intro row hrow
    rw [hentities] at hrow ⊢
    rcases List.mem_append.mp hrow with hrow | hrow
    · refine (h.rows row hrow).imp_right (fun hheld => ?_)
      obtain ⟨into, hget, hin, hvoid, m, p, hm⟩ := hheld
      refine ⟨into, hget, ?_, ?_, m, p, ?_⟩
      · rw [List.map_append]
        exact List.mem_append_left _ hin
      · rw [happ.voided_same hs.log hname]
        exact hvoid
      · apply hm.append happ rfl (hd.created_fresh hs.tables hin)
        rw [happ.undone_same hname]
        exact hm.standing
    · exact Or.inl (hfields row hrow)
  · apply h.acyclic.mono
    rintro a b ⟨row, hrow, hid, hinto⟩
    rw [hentities] at hrow
    rcases List.mem_append.mp hrow with hrow | hrow
    · exact ⟨row, hrow, hid, hinto⟩
    · rw [mergedInto_of_get (hfields row hrow)] at hinto
      cases hinto

/-! ## Merge -/

theorem touchEntity_subset (d : Draft) (id : Option EntityId) :
    d.payload.touches.entities ⊆ (d.touchEntity id).payload.touches.entities := by
  cases id with
  | none => exact List.Subset.refl _
  | some id => exact subset_push _ _

theorem touchEntities_subset (ids : List (Option EntityId)) : ∀ d : Draft,
    d.payload.touches.entities ⊆ (d.touchEntities ids).payload.touches.entities := by
  induction ids with
  | nil => exact fun d => List.Subset.refl _
  | cons id ids ih => exact fun d => List.Subset.trans (touchEntity_subset d id) (ih _)

/-- What a merge has checked and done. -/
structure Merges (s : Store) (d : Draft) (source target : EntityId) : Prop where
  ne : source ≠ target
  live : ∃ t ∈ liveEntities s, t.entityId = target ∧ t.mergedInto = none
  touched : target ∈ d.payload.touches.entities
  created : d.payload.created = {}
  row : ∃ row ∈ s.entities, row.entityId = source ∧ row.mergedInto = none ∧
    d.payload.changes = [.entity ⟨source, entityColumn.get row, (.merged, some target)⟩]
  entities : d.store.entities = entityColumn.write source (.merged, some target) s.entities

/-- What a merge that returns has done. -/
theorem merge_ok {into fromEntity : EntityId} {allow : Bool} {s : Store} (hs : Tables s) {d : Draft}
    (h : merge into fromEntity allow { store := s } = .ok d) : ∃ source target, Merges s d source target := by
  simp only [merge, bind_ok] at h
  obtain ⟨target, htarget, source, hsource, h⟩ := h
  split at h
  · cases h
  · rename_i hne
    simp only [bind_ok] at h
    obtain ⟨a, -, b, -, h⟩ := h
    split at h
    · cases h
    · split at h
      · cases h
      · obtain ⟨row, hrow, hid, hsame⟩ := projectEntity_same h
        have hstart := (touchEntities_same [some into, some fromEntity] { store := s }).trans
          (touchEntities_same [some target, some source, some fromEntity] _)
        have hmem : row ∈ s.entities := by
          have := hrow.mem
          rwa [hstart.store] at this
        obtain ⟨r, hr, hrid, hnone⟩ := canonical_ok hsource
        have hrow' : row = r := hs.entity_unique hmem (List.mem_filter.mp hr).1 (hid.trans hrid.symm)
        refine ⟨source, target, fun he => hne he.symm, canonical_ok htarget, ?_, ?_,
          ⟨row, hmem, hid, hrow' ▸ hnone, ?_⟩, ?_⟩
        · -- the target is touched before the write, and touches are kept
          rw [projectEntity, bind_ok] at h
          obtain ⟨found, -, h⟩ := h
          cases h
          apply touchEntity_subset
          apply touchEntities_subset [some source, some fromEntity]
          exact mem_push.mpr (Or.inr rfl)
        · rw [hsame.created]
          exact hstart.created
        · rw [hsame.changes, ← hid]
          exact congrArg (fun l => l ++ _) hstart.changes
        · rw [hsame.store, ← hid]
          exact congrArg (fun x : Store => entityColumn.write row.entityId
            (.merged, some target) x.entities) hstart.store

theorem mem_liveEntities {s : Store} {row : Entity} :
    row ∈ liveEntities s ↔ row ∈ s.entities ∧ row.entityId ∉ voided Created.entities s := by
  simp [liveEntities]

/-- The edges after a merge. -/
theorem Merges.edge {s s' : Store} {d : Draft} {source target : EntityId} (hm : Merges s d source target)
    (hs' : s'.entities = d.store.entities) {a b : EntityId} (h : Edge s' a b) :
    (Edge s a b ∧ a ≠ source) ∨ (a = source ∧ b = target) := by
  obtain ⟨x, hx, hxid, hinto⟩ := h
  rw [hs', hm.entities] at hx
  cases (Column.mem_write entityColumn).mp hx with
  | inl hx => exact Or.inl ⟨⟨x, hx.1, hxid, hinto⟩, fun he => hx.2 (hxid.trans he)⟩
  | inr hx =>
    obtain ⟨x0, -, hx0id, rfl⟩ := hx
    exact Or.inr ⟨hxid.symm.trans hx0id, (Option.some.inj hinto).symm⟩

/-- The merge holds its source at its target. -/
theorem Merges.holds {s s' : Store} {d : Draft} {source target : EntityId} (hm : Merges s d source target)
    (hs : EventLog s) (happ : Appends s s' ⟨s.nextEvent, .merge, some d.payload, none⟩) :
    Holds s' source target ⟨s.nextEvent, .merge, some d.payload, none⟩ d.payload := by
  obtain ⟨row, -, -, -, hchanges⟩ := hm.row
  refine ⟨happ.mem.mpr (Or.inr rfl), by simp, ?_, rfl, hm.touched, ?_, ?_⟩
  · rw [happ.undone_same (by simp)]
    intro hu
    exact Nat.lt_irrefl _ (undone_below hs hu)
  · rw [hchanges]
    exact List.mem_singleton.mpr rfl
  · intro e he q hq hin
    rcases happ.mem.mp he with he | rfl
    · exact hs.below e he
    · cases hq
      rw [hm.created] at hin
      cases hin

/-- A merge keeps the invariant of the merge graph. -/
theorem mergeInv_merge {c : Context} {into fromEntity : EntityId} {allow : Bool} {s : Store} (hs : WellFormed s)
    (h : MergeInv s) {d : Draft} (hmerge : merge into fromEntity allow { store := s } = .ok d) :
    MergeInv (appendEvent .merge d.payload none d.store) := by
  have hacts : Acts c.env anyWrites { store := s } d := merge_acts_any hmerge
  have hd := hacts.derived hs.tables
  have happ := appends_appendEvent hd .merge none
  obtain ⟨source, target, hm⟩ := merge_ok hs.tables hmerge
  obtain ⟨row, hrow, hrid, hrnone, hchanges⟩ := hm.row
  obtain ⟨t, ht, htid, htnone⟩ := hm.live
  obtain ⟨htmem, htvoid⟩ := mem_liveEntities.mp ht
  have hop : (⟨s.nextEvent, .merge, some d.payload, none⟩ : Event).op ≠ .undo := by simp
  have hvoid : ∀ k, k ∈ voided Created.entities (appendEvent .merge d.payload none d.store) ↔
      k ∈ voided Created.entities s := happ.voided_same hs.log hop
  -- the source was active: a merged entity leads on
  have hbefore : entityColumn.get row = (.active, none) := by
    rcases h.rows row hrow with hget | ⟨k, hget, -⟩
    · exact hget
    · rw [mergedInto_of_get hget] at hrnone
      cases hrnone
  obtain ⟨hbefores, htouched⟩ := mergeInv_events h hd hacts .merge none (by
    intro _ ch hch
    rw [hchanges] at hch
    rw [List.mem_singleton.mp hch]
    exact hbefore)
  have hentities : (appendEvent .merge d.payload none d.store).entities =
      entityColumn.write source (.merged, some target) s.entities := hm.entities
  have hids : (appendEvent .merge d.payload none d.store).entities.map Entity.entityId =
      s.entities.map Entity.entityId := by
    rw [hentities]
    exact Column.map_key_write entityColumn _ _ _
  refine ⟨hbefores, htouched, ?_, ?_⟩
  · intro x hx
    rw [hids]
    rw [hentities] at hx
    rcases (Column.mem_write entityColumn).mp hx with ⟨hx, -⟩ | ⟨x0, hx0, hx0id, rfl⟩
    · refine (h.rows x hx).imp_right (fun hheld => ?_)
      obtain ⟨k, hget, hin, hlive, m, p, hholds⟩ := hheld
      refine ⟨k, hget, hin, fun hk => hlive ((hvoid k).mp hk), m, p, ?_⟩
      apply hholds.append happ rfl (hd.created_fresh hs.tables hin)
      rw [happ.undone_same hop]
      exact hholds.standing
    · right
      have hholds := hm.holds hs.log happ
      rw [← show x0.entityId = source from hx0id] at hholds
      exact ⟨target, rfl, htid ▸ List.mem_map_of_mem htmem,
        fun hk => htvoid (htid ▸ (hvoid target).mp hk), _, _, hholds⟩
  · apply h.acyclic.insert source target
    · exact fun a b hab => (hm.edge rfl hab).imp_left And.left
    · intro b hb
      cases hm.edge rfl hb with
      | inl hold =>
        obtain ⟨⟨x, hx, hxid, hinto⟩, -⟩ := hold
        rw [hs.tables.entity_unique hx htmem (hxid.trans htid.symm), htnone] at hinto
        cases hinto
      | inr hnew => exact hm.ne hnew.1.symm

/-! ## Undo -/

theorem mem_blockers {s : Store} {id : Nat} {touches : Touches} {m : Event} {p : Payload} (hm : m ∈ s.events)
    (hlt : id < m.eventId) (hop : m.op ≠ .undo) (hstanding : m.eventId ∉ undone s) (hp : m.payload = some p)
    (hmeet : touches.meet p.touches = true) : m.eventId ∈ blockers s id touches := by
  refine List.mem_map.mpr ⟨m, List.mem_filter.mpr ⟨List.mem_reverse.mpr hm, ?_⟩, rfl⟩
  simp [hlt, hop, hstanding, hp, hmeet]

/-- The event that made the entity cannot be undone before the holder is. -/
theorem Holds.blocks {c : Context} {s : Store} (h : MergeInv s) {id into : EntityId} {m target : Event} {q p : Payload}
    (hm : Holds s id into m q) {n : Nat} (hok : UndoOk c n s target p) : into ∉ p.created.entities := by
  intro hcreated
  have hlt := hm.newer target hok.mem p hok.payload hcreated
  have hmeet : p.touches.meet q.touches = true := by
    have hany : p.touches.entities.any (fun x => x ∈ q.touches.entities) = true :=
      List.any_eq_true.mpr ⟨into, h.touched target hok.mem p hok.payload hcreated, by simpa using hm.touched⟩
    simp [Touches.meet, hany]
  have hblock := mem_blockers hm.mem (hok.eventId ▸ hlt) hm.op hm.standing hm.payload hmeet
  rw [hok.free] at hblock
  cases hblock

/-- An undo keeps the invariant of the merge graph. -/
theorem mergeInv_undo {c : Context} {id : Nat} {s s' : Store} (hs : WellFormed s) (h : MergeInv s)
    (hundo : undo c id s = .ok s') : MergeInv s' := by
  obtain ⟨target, p, keys, changes, d, hok, hsafe, hbody, rfl⟩ := undo_ok hundo
  have hacts := undoBody_acts hbody
  have hd := hacts.derived hs.tables
  have happ := appends_appendEvent hd .undo (some id)
  have htarget : (⟨s.nextEvent, .undo, some d.payload, some id⟩ : Event).targetEventId = some target.eventId := by
    rw [hok.eventId]
  have hentities : (appendEvent .undo d.payload (some id) d.store).entities =
      entityColumn.rewind (entityLog p.changes) s.entities := by
    rw [← (safeChanges_logs _ hsafe).1]
    exact (undoBody_tables hbody).entities
  have hids : (appendEvent .undo d.payload (some id) d.store).entities.map Entity.entityId =
      s.entities.map Entity.entityId := by
    rw [hentities]
    exact Column.map_key_rewind entityColumn _ _
  have hbefore := h.before target hok.mem hok.op p hok.payload
  obtain ⟨hbefores, htouched⟩ := mergeInv_events h hd hacts .undo (some id) (fun hne => absurd rfl hne)
  refine ⟨hbefores, htouched, ?_, ?_⟩
  · intro row hrow
    rw [hids]
    rw [hentities] at hrow
    rcases Column.mem_rewind entityColumn hrow with ⟨hrow, hnot⟩ | ⟨r0, -, ch, hch, -, rfl⟩
    · refine (h.rows row hrow).imp_right (fun hheld => ?_)
      obtain ⟨into, hget, hin, hvoid, m, q, hm⟩ := hheld
      -- the target is not the holder: it would have restored the row
      have hother : m.eventId ≠ target.eventId := by
        intro he
        have hmt := hs.log.unique hm.mem hok.mem he
        have hpq : q = p := by
          have := hm.payload
          rw [hmt, hok.payload] at this
          exact (Option.some.inj this).symm
        exact hnot (hpq ▸ hm.changed)
      refine ⟨into, hget, hin, ?_, m, q, ?_⟩
      · rw [happ.voided_undo hs.log rfl htarget hok.mem hok.payload, not_or]
        exact ⟨hvoid, hm.blocks h hok⟩
      · apply hm.append happ rfl (hd.created_fresh hs.tables hin)
        rw [happ.undone_undo rfl htarget, not_or]
        exact ⟨hm.standing, hother⟩
    · left
      rw [hbefore ch hch]
      rfl
  · apply h.acyclic.mono
    rintro a b ⟨row, hrow, hid, hinto⟩
    rw [hentities] at hrow
    rcases Column.mem_rewind entityColumn hrow with ⟨hrow, -⟩ | ⟨r0, -, ch, hch, -, rfl⟩
    · exact ⟨row, hrow, hid, hinto⟩
    · rw [hbefore ch hch] at hinto
      cases hinto

/-! ## Every reachable store -/

theorem MergeInv.rebuild {s : Store} (h : MergeInv s) (keys : List KeyRow) (nextKey : Nat) :
    MergeInv { s with keys := keys, nextKey := nextKey } where
  before := h.before
  touched := h.touched
  rows := by
    intro row hrow
    refine (h.rows row hrow).imp_right (fun hheld => ?_)
    obtain ⟨into, hget, hin, hvoid, m, p, hm⟩ := hheld
    exact ⟨into, hget, hin, hvoid, m, p, hm.mem, hm.op, hm.standing, hm.payload, hm.touched, hm.changed, hm.newer⟩
  acyclic := h.acyclic

/-- The invariant of the merge graph holds in every reachable store. -/
theorem mergeInv_reachable {s : Store} (h : Reachable s) : MergeInv s := by
  have hinv : WellFormed s ∧ MergeInv s := by
    refine h.induction (P := MergeInv) ?_ ?_ ?_
    · intro a k e
      refine ⟨by simp [emptyScope], by simp [emptyScope], by simp [emptyScope], fun x hx => ?_⟩
      obtain ⟨y, ⟨row, hrow, -⟩, -⟩ := Relation.TransGen.head'_iff.mp hx
      simp [emptyScope] at hrow
    · intro c s op s' hw hp hcommit
      cases hcommit with
      | plain hname hacts => exact mergeInv_grow (fun _ _ hf => hf) hw hp hacts hname.1
      | merge hm => exact mergeInv_merge (c := c) hw hp hm
      | overrideKey hacts => exact mergeInv_grow (fun _ _ hf => hf) hw hp hacts (by simp)
      | undo hu => exact mergeInv_undo hw hp hu
      | attached _ => exact hp
    · exact fun s keys nextKey hp => hp.rebuild keys nextKey
  exact hinv.2

/-- The relation between the entities that are not void. -/
def MergedInto (s : Store) (a b : EntityId) : Prop := ∃ row ∈ liveEntities s, row.entityId = a ∧ row.mergedInto = some b

theorem live_target {s : Store} (h : MergeInv s) {row : Entity} (hrow : row ∈ liveEntities s) {k : EntityId}
    (hk : row.mergedInto = some k) : ∃ target ∈ liveEntities s, target.entityId = k := by
  rcases h.rows row (mem_liveEntities.mp hrow).1 with hget | ⟨into, hget, hin, hvoid, -⟩
  · rw [mergedInto_of_get hget] at hk
    cases hk
  · rw [mergedInto_of_get hget] at hk
    cases hk
    obtain ⟨target, hmem, hid⟩ := List.mem_map.mp hin
    exact ⟨target, mem_liveEntities.mpr ⟨hmem, hid ▸ hvoid⟩, hid⟩

theorem merged_iff {s : Store} (h : MergeInv s) {row : Entity} (hrow : row ∈ s.entities) :
    row.status = .merged ↔ row.mergedInto ≠ none := by
  rcases h.rows row hrow with hget | ⟨into, hget, -⟩
  · have hst : row.status = .active := congrArg Prod.fst hget
    simp [hst, mergedInto_of_get hget]
  · have hst : row.status = .merged := congrArg Prod.fst hget
    simp [hst, mergedInto_of_get hget]

theorem parentOf_row {entities : List Entity} {id k : EntityId} (h : parentOf entities id = some k) :
    ∃ row ∈ entities, row.entityId = id ∧ row.mergedInto = some k := by
  obtain ⟨row, hfind, hinto⟩ := Option.bind_eq_some_iff.mp h
  obtain ⟨hmem, hid⟩ := findEntity_some hfind
  exact ⟨row, hmem, hid, hinto⟩

/-- The canonical entity is found and is its own canonical entity. -/
theorem canonical_total {s : Store} (h : MergeInv s) {row : Entity} (hrow : row ∈ liveEntities s) :
    ∃ k, canonical (liveEntities s) row.entityId = .ok k ∧ canonical (liveEntities s) k = .ok k := by
  have hclosed : ∀ id ∈ (liveEntities s).map Entity.entityId, ∀ k, parentOf (liveEntities s) id = some k →
      k ∈ (liveEntities s).map Entity.entityId := by
    intro id _ k hk
    obtain ⟨r, hr, -, hinto⟩ := parentOf_row hk
    obtain ⟨t, ht, htid⟩ := live_target h hr hinto
    exact htid ▸ List.mem_map_of_mem ht
  have hacyclic : Acyclic (fun a b => parentOf (liveEntities s) a = some b) := by
    apply h.acyclic.mono
    intro a b hab
    obtain ⟨r, hr, hid, hinto⟩ := parentOf_row hab
    exact ⟨r, (mem_liveEntities.mp hr).1, hid, hinto⟩
  have hid := List.mem_map_of_mem (f := Entity.entityId) hrow
  have hsome := root_isSome hacyclic hclosed (liveEntities s).length [] row.entityId List.nodup_nil
    (by simp) hid (by simp)
  obtain ⟨k, hk⟩ := Option.isSome_iff_exists.mp hsome
  have hkid := root_mem hclosed _ hid hk
  have hself : root (parentOf (liveEntities s)) (liveEntities s).length k = some k := by
    cases hlen : (liveEntities s).length with
    | zero =>
      rw [List.length_eq_zero_iff] at hlen
      rw [hlen] at hrow
      cases hrow
    | succ n => simp only [root, parent_root _ hk]
  have hcanonical : ∀ id, id ∈ (liveEntities s).map Entity.entityId →
      root (parentOf (liveEntities s)) (liveEntities s).length id = some k → canonical (liveEntities s) id = .ok k := by
    intro id hin hroot
    have hany : (liveEntities s).any (fun r => r.entityId = id) = true := by
      obtain ⟨r, hr, hrid⟩ := List.mem_map.mp hin
      exact List.any_eq_true.mpr ⟨r, hr, by simpa using hrid⟩
    rw [canonical, if_pos hany]
    exact canonicalFrom_root hclosed _ hin hroot
  exact ⟨k, hcanonical _ hid hk, hcanonical _ hkid hself⟩

/-- In every reachable store, over the entities that are not void: no cycle, no
pointer to a void or missing entity, `merged` exactly with a pointer, and a
canonical entity that is found and is its own. -/
theorem merge_graph (s : Store) (h : Reachable s) :
    Acyclic (MergedInto s) ∧
    (∀ row ∈ liveEntities s, ∀ k, row.mergedInto = some k → ∃ target ∈ liveEntities s, target.entityId = k) ∧
    (∀ row ∈ liveEntities s, row.status = .merged ↔ row.mergedInto ≠ none) ∧
    ∀ row ∈ liveEntities s, ∃ k, canonical (liveEntities s) row.entityId = .ok k ∧
      canonical (liveEntities s) k = .ok k := by
  have hinv := mergeInv_reachable h
  refine ⟨?_, ?_, ?_, ?_⟩
  · apply hinv.acyclic.mono
    rintro a b ⟨row, hrow, hid, hinto⟩
    exact ⟨row, (mem_liveEntities.mp hrow).1, hid, hinto⟩
  · exact fun row hrow k hk => live_target hinv hrow hk
  · exact fun row hrow => merged_iff hinv (mem_liveEntities.mp hrow).1
  · exact fun row hrow => canonical_total hinv hrow

/-- Two entities, the second merged into the first. -/
def mergedPair : Store := run (emptyScope 1 1 1)
  [(plainContext 1, .createEntity "Ann" .person), (plainContext 2, .createEntity "Anna" .person),
    (plainContext 3, .merge 1 2 false)]

theorem merge_graph_pair : (∃ row ∈ liveEntities mergedPair, row.mergedInto = some 1) ∧
    Acyclic (MergedInto mergedPair) :=
  ⟨by decide +kernel, (merge_graph mergedPair ((Reachable.empty 1 1 1).run _)).1⟩

end EntityStore
