import LcmX.EntityMerge

/-!
# What the event of an alias touches

The event that makes or retires an alias touches its id, its entity and, for a
platform id, its text; and it touches no other text.
-/
namespace EntityStore

open ChangeLog Fallible Draft

/-- The payload touches the alias, its entity and its platform id. -/
structure Mentions (p : Payload) (a : Alias) : Prop where
  id : AliasTouch.id a.aliasId ∈ p.touches.aliases
  entity : a.entityId ∈ p.touches.entities
  norm : a.aliasKind = .platformId → AliasTouch.norm a.aliasNorm ∈ p.touches.aliases

/-- Two rows of one alias, at different times. -/
structure SameAlias (a b : Alias) : Prop where
  aliasId : b.aliasId = a.aliasId
  entityId : b.entityId = a.entityId
  aliasKind : b.aliasKind = a.aliasKind
  aliasNorm : b.aliasNorm = a.aliasNorm

theorem SameAlias.refl (a : Alias) : SameAlias a a := ⟨rfl, rfl, rfl, rfl⟩

variable {b row : Alias} {name : String} {kind : Kind} {new entityId : EntityId}
  {aliasIds : List Nat}

theorem SameAlias.symm {a : Alias} (h : SameAlias a b) : SameAlias b a :=
  ⟨h.aliasId.symm, h.entityId.symm, h.aliasKind.symm, h.aliasNorm.symm⟩

theorem SameAlias.trans {a c : Alias} (h : SameAlias a b) (h' : SameAlias b c) : SameAlias a c :=
  ⟨h'.aliasId.trans h.aliasId, h'.entityId.trans h.entityId, h'.aliasKind.trans h.aliasKind,
    h'.aliasNorm.trans h.aliasNorm⟩

theorem sameAlias_set (v : Option Rat) (a : Alias) : SameAlias a (aliasColumn.set v a) := ⟨rfl, rfl, rfl, rfl⟩

theorem Mentions.same {p : Payload} {a : Alias} (h : Mentions p a) (hsame : SameAlias a b) : Mentions p b := by
  refine ⟨hsame.aliasId ▸ h.id, hsame.entityId ▸ h.entity, fun hkind => ?_⟩
  rw [hsame.aliasNorm]
  exact h.norm (hsame.aliasKind ▸ hkind)

/-! ## Steps that leave the aliases -/

/-- The draft goes on without writing or touching an alias. -/
structure Quiet (d d' : Draft) : Prop where
  aliases : d'.store.aliases = d.store.aliases
  created : d'.payload.created.aliases = d.payload.created.aliases
  log : aliasLog d'.payload.changes = aliasLog d.payload.changes
  touched : d'.payload.touches.aliases = d.payload.touches.aliases
  entities : d.payload.touches.entities ⊆ d'.payload.touches.entities
  rows : d.store.entities.map Entity.entityId ⊆ d'.store.entities.map Entity.entityId
  nextAlias : d'.store.nextAlias = d.store.nextAlias

theorem Quiet.refl (d : Draft) : Quiet d d := ⟨rfl, rfl, rfl, rfl, List.Subset.refl _, List.Subset.refl _, rfl⟩

theorem Quiet.trans {a b c : Draft} (h : Quiet a b) (h' : Quiet b c) : Quiet a c :=
  ⟨h'.aliases.trans h.aliases, h'.created.trans h.created, h'.log.trans h.log, h'.touched.trans h.touched,
    List.Subset.trans h.entities h'.entities, List.Subset.trans h.rows h'.rows, h'.nextAlias.trans h.nextAlias⟩

theorem quiet_touchEntity (d : Draft) (id : Option EntityId) : Quiet d (d.touchEntity id) := by
  cases id with
  | none => exact .refl d
  | some id => exact ⟨rfl, rfl, rfl, rfl, subset_push _ _, List.Subset.refl _, rfl⟩

theorem quiet_touchEntities (ids : List (Option EntityId)) : ∀ d : Draft, Quiet d (d.touchEntities ids) := by
  induction ids with
  | nil => exact fun d => .refl d
  | cons id ids ih => exact fun d => (quiet_touchEntity d id).trans (ih _)

theorem quiet_touchNote (d : Draft) (id : Option NoteId) : Quiet d (d.touchNote id) := by
  cases id with
  | none => exact .refl d
  | some id => exact ⟨rfl, rfl, rfl, rfl, List.Subset.refl _, List.Subset.refl _, rfl⟩

theorem quiet_touchKey (d : Draft) (key : String × Option EntityId) : Quiet d (d.touchKey key) :=
  ⟨rfl, rfl, rfl, rfl, List.Subset.refl _, List.Subset.refl _, rfl⟩

variable {c : Context} {d d' : Draft}

theorem quiet_projectEntity {id : EntityId} {v : Status × Option EntityId}
    (h : projectEntity id v d = .ok d') : Quiet d d' := by
  rw [projectEntity, bind_ok] at h
  obtain ⟨row, -, h⟩ := h
  cases h
  refine .trans ?_ (quiet_touchEntity _ _)
  refine ⟨rfl, rfl, aliasLog_snoc _ _, rfl, List.Subset.refl _, fun x hx => ?_, rfl⟩
  have hkeys := Column.map_key_write entityColumn id v d.store.entities
  exact hkeys.symm ▸ hx

theorem quiet_projectNote {id : NoteId} {v : Option NoteId} (h : projectNote c id v d = .ok d') : Quiet d d' := by
  rw [projectNote, bind_ok] at h
  obtain ⟨row, -, h⟩ := h
  cases h
  refine .trans ?_ ((quiet_touchNote _ _).trans (quiet_touchEntity _ _))
  exact ⟨rfl, rfl, aliasLog_snoc _ _, rfl, List.Subset.refl _, List.Subset.refl _, rfl⟩

theorem quiet_projectKey {id : Nat} {v : Stamp} (h : projectKey c id v d = .ok d') : Quiet d d' := by
  simp only [projectKey, bind_ok] at h
  obtain ⟨row, -, s, hs, h⟩ := h
  cases h
  unfold setKeyRetired at hs
  split at hs
  · cases hs
  · cases hs
    refine .trans ?_ ((quiet_touchKey _ _).trans (quiet_touchEntity _ _))
    exact ⟨rfl, rfl, aliasLog_snoc _ _, rfl, List.Subset.refl _, List.Subset.refl _, rfl⟩

theorem quiet_newEntity (h : newEntity c name kind d = .ok d') : Quiet d d' := by
  rw [newEntity, bind_ok] at h
  obtain ⟨s, hs, h⟩ := h
  cases h
  unfold insertEntity at hs
  split at hs
  · cases hs
  · cases hs
    refine .trans ?_ (quiet_touchEntity _ _)
    refine ⟨rfl, rfl, rfl, rfl, List.Subset.refl _, ?_, rfl⟩
    intro x hx
    exact mem_map_append hx _

theorem quiet_newNote {row : Note} (h : newNote c row d = .ok d') : Quiet d d' := by
  rw [newNote] at h
  simp only [bind_ok] at h
  obtain ⟨s, hs, h⟩ := h
  cases h
  unfold insertNote at hs
  split at hs
  · cases hs
  · cases hs
    refine .trans ?_ (quiet_touchNote _ _)
    exact ⟨rfl, rfl, rfl, rfl, List.Subset.refl _, List.Subset.refl _, rfl⟩

theorem quiet_newKey {row : KeyRow} (h : newKey row d = .ok d') : Quiet d d' := by
  rw [newKey, bind_ok] at h
  obtain ⟨s, hs, h⟩ := h
  cases h
  unfold insertKey at hs
  split at hs
  · cases hs
  · cases hs
    exact ⟨rfl, rfl, rfl, rfl, List.Subset.refl _, List.Subset.refl _, rfl⟩

/-! ## Operations that leave the aliases -/

theorem quiet_addNote {text : String} {o : NoteOptions} (h : addNote c text o d = .ok d') : Quiet d d' := by
  simp only [addNote, bind_ok] at h
  obtain ⟨-, -, -, -, -, -, mid, hmid, h⟩ := h
  have hnew : Quiet d mid :=
    (quiet_touchEntities _ d).trans ((quiet_touchNote _ _).trans ((quiet_touchNote _ _).trans (quiet_newNote hmid)))
  split at h
  · cases h
    exact hnew
  · exact hnew.trans (quiet_projectNote h)

theorem quiet_changeKind {id : EntityId} (h : changeKind id kind d = .ok d') : Quiet d d' := by
  rw [changeKind, bind_ok] at h
  obtain ⟨entity, -, h⟩ := h
  cases h
  refine .trans ?_ (quiet_touchEntity _ _)
  exact ⟨rfl, rfl, rfl, rfl, List.Subset.refl _, List.Subset.refl _, rfl⟩

theorem quiet_merge {into fromEntity : EntityId} {allow : Bool}
    (h : merge into fromEntity allow d = .ok d') : Quiet d d' := by
  simp only [merge, bind_ok] at h
  obtain ⟨target, -, source, -, h⟩ := h
  split at h
  · cases h
  · simp only [bind_ok] at h
    obtain ⟨a, -, b, -, h⟩ := h
    split at h
    · cases h
    · split at h
      · cases h
      · exact (quiet_touchEntities _ d).trans ((quiet_touchEntities _ _).trans (quiet_projectEntity h))

theorem quiet_overrideSlot {subject : String} {owner : Option EntityId} {row : KeyRow}
    (h : overrideSlot c subject owner d row = .ok d') : Quiet d d' := by
  simp only [overrideSlot, bind_ok] at h
  obtain ⟨mid, hmid, h⟩ := h
  split at h
  · simp only [bind_ok] at h
    obtain ⟨last, hlast, s, hs, h⟩ := h
    unfold setKeyRetired at hs
    split at hs
    · cases hs
    · cases hs
      cases h
      refine (quiet_projectKey hmid).trans ((quiet_newKey hlast).trans ?_)
      exact ⟨rfl, rfl, rfl, rfl, List.Subset.refl _, List.Subset.refl _, rfl⟩
  · cases h
    exact quiet_projectKey hmid

/-- Overriding a key changes no alias and no entity. -/
theorem quiet_overrideKey {subject : String} {id : EntityId} {scope : Option (List Int)} {owner : Option EntityId}
    (h : overrideKey c subject id scope owner d = .ok d') : Quiet d d' := by
  rw [overrideKey, keyHeld_ok] at h
  simp only [overrideKeyBody, bind_ok] at h
  obtain ⟨target, -, h⟩ := h
  split at h
  · cases h
  · simp only [bind_ok] at h
    obtain ⟨entity, -, h⟩ := h
    split at h
    · cases h
    · simp only [bind_ok] at h
      obtain ⟨-, -, view, -, h⟩ := h
      split at h
      · cases h
      · split at h
        · cases h
        · simp only [bind_ok] at h
          obtain ⟨current, -, h⟩ := h
          have hstart : ∀ o ids key, Quiet d
              (({ d with payload := { d.payload with override := o } }.touchEntities ids).touchKey key) := by
            intro o ids key
            refine .trans ?_ ((quiet_touchEntities ids _).trans (quiet_touchKey _ _))
            exact ⟨rfl, rfl, rfl, rfl, List.Subset.refl _, List.Subset.refl _, rfl⟩
          split at h
          · simp only [bind_ok] at h
            obtain ⟨mid, hmid, h⟩ := h
            have hloop : Quiet d mid :=
              foldlM_invariant (fun _ _ _ _ ha hb => ha.trans (quiet_overrideSlot hb)) (hstart _ _ _) hmid
            exact hloop.trans (quiet_newKey h)
          · cases h
            exact hstart _ _ _

theorem quiet_splitNote {row : Note} (h : splitNote c new d row = .ok d') : Quiet d d' := by
  simp only [splitNote, bind_ok] at h
  obtain ⟨mid, hmid, h⟩ := h
  exact (quiet_newNote hmid).trans ((quiet_touchEntities _ _).trans ((quiet_touchNote _ _).trans (quiet_projectNote h)))

/-! ## Operations on aliases -/

/-- The ids of the aliases whose field the draft has written. -/
def retiredIds (p : Payload) : List Nat := (aliasLog p.changes).map Change.id

/-- What an operation does to the aliases of a store: it makes some, retires some, and mentions just these. -/
structure Mentioned (s : Store) (d : Draft) : Prop where
  made : ∀ a ∈ d.store.aliases, a.aliasId ∈ d.payload.created.aliases → a.retiredAt = none ∧ Mentions d.payload a ∧
    a.entityId ∈ d.store.entities.map Entity.entityId ∧ a.entityId ∉ voided Created.entities s
  old : ∀ a ∈ d.store.aliases, a.aliasId ∉ d.payload.created.aliases → ∃ a0 ∈ s.aliases, SameAlias a0 a ∧
    (a = a0 ∧ a.aliasId ∉ retiredIds d.payload ∨ a.retiredAt ≠ none ∧ a.aliasId ∈ retiredIds d.payload)
  kept : ∀ a0 ∈ s.aliases, ∃ a ∈ d.store.aliases, SameAlias a0 a
  retired : ∀ ch ∈ aliasLog d.payload.changes, ch.before = none ∧ ∃ a0 ∈ s.aliases,
    a0.aliasId = ch.id ∧ a0.retiredAt = none ∧
    Mentions d.payload a0 ∧ a0.aliasId ∉ voided Created.aliases s
  norms : ∀ n, AliasTouch.norm n ∈ d.payload.touches.aliases → ∃ a ∈ d.store.aliases,
    a.aliasKind = .platformId ∧ a.aliasNorm = n ∧
    (a.aliasId ∈ d.payload.created.aliases ∨ a.aliasId ∈ retiredIds d.payload)
  ids : ∀ id, AliasTouch.id id ∈ d.payload.touches.aliases → id ∈ d.payload.created.aliases ∨ id ∈ retiredIds d.payload
  fresh : ∀ id ∈ d.payload.created.aliases, s.nextAlias ≤ id ∧ id < d.store.nextAlias
  grows : s.nextAlias ≤ d.store.nextAlias

theorem mentioned_start (s : Store) : Mentioned s { store := s } where
  made := fun _ _ h => by cases h
  old := fun a ha _ => ⟨a, ha, .refl a, .inl ⟨rfl, by simp [retiredIds, aliasLog]⟩⟩
  kept := fun a ha => ⟨a, ha, .refl a⟩
  retired := fun _ h => by cases h
  norms := fun _ h => by cases h
  ids := fun _ h => by cases h
  fresh := fun _ h => by cases h
  grows := le_rfl

variable {s : Store}

theorem Mentions.grow {p q : Payload} {a : Alias} (h : Mentions p a) (haliases : p.touches.aliases ⊆ q.touches.aliases)
    (hentities : p.touches.entities ⊆ q.touches.entities) : Mentions q a :=
  ⟨haliases h.id, hentities h.entity, fun hkind => haliases (h.norm hkind)⟩

theorem Mentioned.quiet (h : Mentioned s d) (hquiet : Quiet d d') : Mentioned s d' := by
  have hids : retiredIds d'.payload = retiredIds d.payload := congrArg (List.map Change.id) hquiet.log
  have hmentions : ∀ a, Mentions d.payload a → Mentions d'.payload a :=
    fun a ha => ha.grow (by rw [hquiet.touched]; exact List.Subset.refl _) hquiet.entities
  constructor
  · intro a ha hin
    rw [hquiet.aliases] at ha
    rw [hquiet.created] at hin
    obtain ⟨hnone, hmention, hrow, hvoid⟩ := h.made a ha hin
    exact ⟨hnone, hmentions a hmention, hquiet.rows hrow, hvoid⟩
  · rw [hquiet.aliases, hquiet.created, hids]
    exact h.old
  · rw [hquiet.aliases]
    exact h.kept
  · intro ch hch
    rw [hquiet.log] at hch
    obtain ⟨hbefore, a0, ha0, hid, hnone, hmention, hvoid⟩ := h.retired ch hch
    exact ⟨hbefore, a0, ha0, hid, hnone, hmentions a0 hmention, hvoid⟩
  · rw [hquiet.aliases, hquiet.touched, hquiet.created, hids]
    exact h.norms
  · rw [hquiet.touched, hquiet.created, hids]
    exact h.ids
  · rw [hquiet.created, hquiet.nextAlias]
    exact h.fresh
  · rw [hquiet.nextAlias]
    exact h.grows

/-! ## New aliases -/

theorem mem_aliasTouches_iff {touches : List AliasTouch} {x : AliasTouch} : x ∈ aliasTouches touches row ↔
    x ∈ touches ∨ x = .id row.aliasId ∨ row.aliasKind = .platformId ∧ x = .norm row.aliasNorm := by
  unfold aliasTouches
  split
  · rename_i hkind
    rw [mem_push, mem_push, or_assoc]
    simp [hkind]
  · rename_i hkind
    rw [mem_push]
    simp [hkind]

/-- The first touch of an alias reads it back. -/
theorem touchAlias_first {env : Env} (hids : (d.store.aliases.map Alias.aliasId).Nodup) (hrow : row ∈ d.store.aliases)
    (hfirst : AliasTouch.id row.aliasId ∉ d.payload.touches.aliases) (h : touchAlias env d row.aliasId = .ok d') :
    d' = d.setTouches { d.payload.touches with aliases := aliasTouches d.payload.touches.aliases row } := by
  unfold touchAlias at h
  rw [if_neg hfirst] at h
  split at h
  · cases h
  · rename_i found hget
    obtain ⟨hmem, hid, -⟩ := getAlias_some hget
    have hsame : found = row := List.inj_on_of_nodup_map hids hmem hrow hid
    rw [hsame] at h
    exact (Except.ok.inj h).symm

theorem touchEntities_entities (ids : List (Option EntityId)) : ∀ d e : Draft,
    d.payload.touches.entities = e.payload.touches.entities →
      (d.touchEntities ids).payload.touches.entities = (e.touchEntities ids).payload.touches.entities := by
  induction ids with
  | nil => exact fun _ _ h => h
  | cons id ids ih =>
    intro d e h
    apply ih
    cases id with
    | none => exact h
    | some id => exact congrArg (fun l => push l id) h

/-- The draft with one more alias that it has touched. -/
structure AddsAlias (d d' : Draft) (r : Alias) : Prop where
  aliases : d'.store.aliases = d.store.aliases ++ [r]
  created : d'.payload.created.aliases = d.payload.created.aliases ++ [r.aliasId]
  log : aliasLog d'.payload.changes = aliasLog d.payload.changes
  touched : ∀ x, x ∈ d'.payload.touches.aliases ↔
    x ∈ d.payload.touches.aliases ∨ x = .id r.aliasId ∨ r.aliasKind = .platformId ∧ x = .norm r.aliasNorm
  entities : d.payload.touches.entities ⊆ d'.payload.touches.entities
  rows : d'.store.entities = d.store.entities
  id : r.aliasId = d.store.nextAlias
  nextAlias : d'.store.nextAlias = d.store.nextAlias + 1

/-- A new alias is added and its entities are touched. -/
theorem newAlias_adds (hsound : d.Sound) {touched : List (Option EntityId)}
    (hnew : newAlias c row touched d = .ok d') : AddsAlias d d' { row with aliasId := d.store.nextAlias } ∧
      (d.touchEntities touched).payload.touches.entities ⊆ d'.payload.touches.entities := by
  obtain ⟨-, -, htouch⟩ := newAlias_ok hsound hnew
  generalize hr : ({ row with aliasId := d.store.nextAlias } : Alias) = r at htouch
  have hrid : r.aliasId = d.store.nextAlias := by rw [← hr]
  have hquiet := quiet_touchEntities touched (d.withAlias r)
  have hnodup : ((d.withAlias r).store.aliases.map Alias.aliasId).Nodup :=
    nodup_append_fresh hsound.tables.aliasIds (hrid ▸ hsound.tables.alias_fresh)
  have hmem : r ∈ ((d.withAlias r).touchEntities touched).store.aliases := by
    rw [hquiet.aliases]
    exact List.mem_append_right _ (List.mem_singleton.mpr rfl)
  have hfirst : AliasTouch.id r.aliasId ∉ ((d.withAlias r).touchEntities touched).payload.touches.aliases := by
    rw [hquiet.touched]
    intro hin
    obtain ⟨a, ha, hid⟩ := List.mem_map.mp (hsound.touched _ hin)
    have hlt := hsound.tables.aliasBelow a ha
    omega
  rw [← hrid] at htouch
  obtain rfl := touchAlias_first (by rw [hquiet.aliases]; exact hnodup) hmem hfirst htouch
  have hentities : ((d.withAlias r).touchEntities touched).payload.touches.entities =
      (d.touchEntities touched).payload.touches.entities := touchEntities_entities touched _ _ rfl
  refine ⟨⟨hquiet.aliases, hquiet.created, hquiet.log, fun x => ?_, ?_, ?_, hrid, hquiet.nextAlias⟩, ?_⟩
  · change x ∈ aliasTouches ((d.withAlias r).touchEntities touched).payload.touches.aliases r ↔ _
    rw [hquiet.touched]
    exact mem_aliasTouches_iff
  · exact hquiet.entities
  · change ((d.withAlias r).touchEntities touched).store.entities = _
    rw [(touchEntities_same touched (d.withAlias r)).store]
    rfl
  · rw [← hentities]
    exact List.Subset.refl _

/-- Adding an alias keeps the payload's account of the draft. -/
theorem AddsAlias.mentioned {r : Alias} (hadds : AddsAlias d d' r) (h : Mentioned s d)
    (hsound : d.Sound) (hnone : r.retiredAt = none)
    (hrow : r.entityId ∈ d.store.entities.map Entity.entityId) (hvoid : r.entityId ∉ voided Created.entities s)
    (hentity : r.entityId ∈ d'.payload.touches.entities) : Mentioned s d' := by
  have hfresh : ∀ a ∈ d.store.aliases, a.aliasId ≠ r.aliasId := by
    intro a ha he
    have hlt := hsound.tables.aliasBelow a ha
    rw [hadds.id] at he
    omega
  have hids : retiredIds d'.payload = retiredIds d.payload := congrArg (List.map Change.id) hadds.log
  have htouches : d.payload.touches.aliases ⊆ d'.payload.touches.aliases := fun x hx => (hadds.touched x).mpr (.inl hx)
  constructor
  · intro a ha hin
    rw [hadds.aliases] at ha
    rw [hadds.created] at hin
    rw [hadds.rows]
    cases List.mem_append.mp ha with
    | inl ha =>
      have hin : a.aliasId ∈ d.payload.created.aliases :=
        (List.mem_append.mp hin).resolve_right fun he => hfresh a ha (List.mem_singleton.mp he)
      obtain ⟨hnone, hmention, hrow, hvoid⟩ := h.made a ha hin
      exact ⟨hnone, hmention.grow htouches hadds.entities, hrow, hvoid⟩
    | inr ha =>
      rw [List.mem_singleton.mp ha]
      refine ⟨hnone, ⟨(hadds.touched _).mpr (.inr (.inl rfl)), hentity, fun hkind => ?_⟩, hrow, hvoid⟩
      exact (hadds.touched _).mpr (.inr (.inr ⟨hkind, rfl⟩))
  · intro a ha hnot
    rw [hadds.aliases] at ha
    rw [hadds.created, List.mem_append, not_or] at hnot
    rw [hids]
    cases List.mem_append.mp ha with
    | inl ha => exact h.old a ha hnot.1
    | inr ha =>
      rw [List.mem_singleton.mp ha] at hnot
      exact absurd (List.mem_singleton.mpr rfl) hnot.2
  · intro a0 ha0
    obtain ⟨a, ha, hsame⟩ := h.kept a0 ha0
    exact ⟨a, by rw [hadds.aliases]; exact List.mem_append_left _ ha, hsame⟩
  · intro ch hch
    rw [hadds.log] at hch
    obtain ⟨hbefore, a0, ha0, hid, hnone, hmention, hvoid⟩ := h.retired ch hch
    exact ⟨hbefore, a0, ha0, hid, hnone, hmention.grow htouches hadds.entities, hvoid⟩
  · intro n hn
    rw [hadds.aliases, hadds.created, hids]
    rcases (hadds.touched _).mp hn with hn | hn | ⟨hkind, hn⟩
    · obtain ⟨a, ha, hkind, hnorm, hwhere⟩ := h.norms n hn
      exact ⟨a, List.mem_append_left _ ha, hkind, hnorm, hwhere.imp_left (List.mem_append_left _)⟩
    · cases hn
    · cases hn
      exact ⟨r, List.mem_append_right _ (List.mem_singleton.mpr rfl), hkind, rfl,
        .inl (List.mem_append_right _ (List.mem_singleton.mpr rfl))⟩
  · intro id hid
    rw [hadds.created, hids]
    rcases (hadds.touched _).mp hid with hid | hid | ⟨-, hid⟩
    · exact (h.ids id hid).imp_left (List.mem_append_left _)
    · cases hid
      exact .inl (List.mem_append_right _ (List.mem_singleton.mpr rfl))
    · cases hid
  · intro id hid
    rw [hadds.created] at hid
    rw [hadds.nextAlias]
    cases List.mem_append.mp hid with
    | inl hid =>
      have hbounds := h.fresh id hid
      omega
    | inr hid =>
      rw [List.mem_singleton.mp hid, hadds.id]
      have hgrows := h.grows
      omega
  · rw [hadds.nextAlias]
    have hgrows := h.grows
    omega

/-! ## Retired aliases -/

/-- The draft with one alias retired and touched. -/
structure RetiresAlias (d d' : Draft) (row : Alias) (v : Option Rat) : Prop where
  value : v ≠ none
  aliases : d'.store.aliases = aliasColumn.write row.aliasId v d.store.aliases
  created : d'.payload.created.aliases = d.payload.created.aliases
  log : aliasLog d'.payload.changes = aliasLog d.payload.changes ++ [⟨row.aliasId, row.retiredAt, v⟩]
  touched : ∀ x, x ∈ d'.payload.touches.aliases ↔
    x ∈ d.payload.touches.aliases ∨ x = .id row.aliasId ∨ row.aliasKind = .platformId ∧ x = .norm row.aliasNorm
  entities : d.payload.touches.entities ⊆ d'.payload.touches.entities
  entity : row.entityId ∈ d'.payload.touches.entities
  rows : d'.store.entities = d.store.entities
  nextAlias : d'.store.nextAlias = d.store.nextAlias

theorem projectAlias_retires (hids : (d.store.aliases.map Alias.aliasId).Nodup) {id : Nat}
    (hfirst : AliasTouch.id id ∉ d.payload.touches.aliases) (h : projectAlias c id .now d = .ok d') :
    ∃ row, ReadableAlias c.env d.store row ∧ row.aliasId = id ∧ RetiresAlias d d' row (some (c.now d.ticks)) := by
  obtain ⟨row, mid, hrow, rfl, -, hmid, rfl⟩ := projectAlias_ok h
  refine ⟨row, hrow, rfl, ?_⟩
  have hwritten : aliasColumn.set
      (some (c.now d.ticks)) row ∈ (d.writeAlias row (some (c.now d.ticks))).store.aliases :=
    (Column.mem_write aliasColumn).mpr (.inr ⟨row, hrow.mem, rfl, rfl⟩)
  have hnodup : ((d.writeAlias row (some (c.now d.ticks))).store.aliases.map Alias.aliasId).Nodup := by
    have hkeys := Column.map_key_write aliasColumn row.aliasId (some (c.now d.ticks)) d.store.aliases
    exact hkeys.symm ▸ hids
  obtain rfl := touchAlias_first hnodup hwritten hfirst hmid
  refine ⟨by simp, rfl, rfl, aliasLog_snoc _ _, fun x => mem_aliasTouches_iff, ?_, ?_, rfl, rfl⟩
  · exact subset_push _ _
  · exact mem_push.mpr (.inr rfl)

/-- Retiring an alias keeps the payload's account of the draft. -/
theorem RetiresAlias.mentioned {v : Option Rat} (hretires : RetiresAlias d d' row v) (h : Mentioned s d)
    (hsound : d.Sound) (hrow : row ∈ d.store.aliases)
    (hold : row.aliasId ∉ d.payload.created.aliases) (hnone : row.retiredAt = none)
    (hvoid : row.aliasId ∉ voided Created.aliases s) : Mentioned s d' := by
  have hids : retiredIds d'.payload = retiredIds d.payload ++ [row.aliasId] := by
    rw [retiredIds, hretires.log, List.map_append]
    rfl
  have htouches : d.payload.touches.aliases ⊆ d'.payload.touches.aliases :=
    fun x hx => (hretires.touched x).mpr (.inl hx)
  -- Before, the row stood as the store has it.
  obtain ⟨row0, hrow0, -, ⟨rfl, hnot⟩ | ⟨hretired, -⟩⟩ := h.old row hrow hold
  swap
  · exact absurd hnone hretired
  have hmention : Mentions d'.payload row :=
    ⟨(hretires.touched _).mpr (.inr (.inl rfl)), hretires.entity,
      fun hkind => (hretires.touched _).mpr (.inr (.inr ⟨hkind, rfl⟩))⟩
  -- A row of the new table is another one as it was, or this one retired.
  have hcases : ∀ a ∈ d'.store.aliases, a ∈ d.store.aliases ∧ a.aliasId ≠ row.aliasId ∨ a = aliasColumn.set v row := by
    intro a ha
    rw [hretires.aliases] at ha
    rcases (Column.mem_write aliasColumn).mp ha with ⟨ha, hne⟩ | ⟨r0, hr0, hk, rfl⟩
    · exact .inl ⟨ha, hne⟩
    · rw [hsound.tables.alias_unique hr0 hrow hk]
      exact .inr rfl
  have hkeep : ∀ a ∈ d.store.aliases, ∃ a' ∈ d'.store.aliases, SameAlias a a' := by
    intro a ha
    rw [hretires.aliases]
    by_cases hid : a.aliasId = row.aliasId
    · exact ⟨aliasColumn.set v a, (Column.mem_write aliasColumn).mpr (.inr ⟨a, ha, hid, rfl⟩), sameAlias_set v a⟩
    · exact ⟨a, (Column.mem_write aliasColumn).mpr (.inl ⟨ha, hid⟩), .refl a⟩
  constructor
  · intro a ha hin
    rw [hretires.created] at hin
    rw [hretires.rows]
    obtain ⟨ha, -⟩ | rfl := hcases a ha
    · obtain ⟨hnone, hmention, hrow, hvoid⟩ := h.made a ha hin
      exact ⟨hnone, hmention.grow htouches hretires.entities, hrow, hvoid⟩
    · exact absurd hin hold
  · intro a ha hnotin
    rw [hretires.created] at hnotin
    rw [hids]
    obtain ⟨ha, hne⟩ | rfl := hcases a ha
    · obtain ⟨a0, ha0, hsame, hstate⟩ := h.old a ha hnotin
      refine ⟨a0, ha0, hsame, hstate.imp (fun hs => ⟨hs.1, ?_⟩) fun hs => ⟨hs.1, List.mem_append_left _ hs.2⟩⟩
      rw [List.mem_append, not_or]
      exact ⟨hs.2, by simpa using hne⟩
    · refine ⟨row, hrow0, sameAlias_set v row, .inr ⟨hretires.value, ?_⟩⟩
      exact List.mem_append_right _ (List.mem_singleton.mpr rfl)
  · intro a0 ha0
    obtain ⟨a, ha, hsame⟩ := h.kept a0 ha0
    obtain ⟨a', ha', hsame'⟩ := hkeep a ha
    exact ⟨a', ha', hsame.trans hsame'⟩
  · intro ch hch
    rw [hretires.log] at hch
    cases List.mem_append.mp hch with
    | inl hch =>
      obtain ⟨hbefore, a0, ha0, hid, hnone, hmention, hvoid⟩ := h.retired ch hch
      exact ⟨hbefore, a0, ha0, hid, hnone, hmention.grow htouches hretires.entities, hvoid⟩
    | inr hch =>
      rw [List.mem_singleton.mp hch]
      exact ⟨hnone, row, hrow0, rfl, hnone, hmention, hvoid⟩
  · intro n hn
    rw [hretires.created, hids]
    rcases (hretires.touched _).mp hn with hn | hn | ⟨hkind, hn⟩
    · obtain ⟨a, ha, hkind, hnorm, hwhere⟩ := h.norms n hn
      obtain ⟨a', ha', hsame⟩ := hkeep a ha
      refine ⟨a', ha', hsame.aliasKind.trans hkind, hsame.aliasNorm.trans hnorm, ?_⟩
      rw [hsame.aliasId]
      exact hwhere.imp_right (List.mem_append_left _)
    · cases hn
    · cases hn
      obtain ⟨a', ha', hsame⟩ := hkeep row hrow
      refine ⟨a', ha', hsame.aliasKind.trans hkind, hsame.aliasNorm, .inr ?_⟩
      rw [hsame.aliasId]
      exact List.mem_append_right _ (List.mem_singleton.mpr rfl)
  · intro id hid
    rw [hretires.created, hids]
    rcases (hretires.touched _).mp hid with hid | hid | ⟨-, hid⟩
    · exact (h.ids id hid).imp_right (List.mem_append_left _)
    · cases hid
      exact .inr (List.mem_append_right _ (List.mem_singleton.mpr rfl))
    · cases hid
  · rw [hretires.created, hretires.nextAlias]
    exact h.fresh
  · rw [hretires.nextAlias]
    exact h.grows

/-! ## The operations -/

theorem checkEntities_ok {ids : List (Option EntityId)} : checkEntities s ids = .ok () → ∀ id, some id ∈ ids →
    id ∈ s.entities.map Entity.entityId ∧ id ∉ voided Created.entities s := by
  induction ids with
  | nil => exact fun _ _ h => by cases h
  | cons first ids ih =>
    intro h id hid
    cases first with
    | none => exact ih h id ((List.mem_cons.mp hid).resolve_left nofun)
    | some x =>
      rw [checkEntities, bind_ok] at h
      obtain ⟨row, hrow, h⟩ := h
      obtain ⟨hlive, rfl⟩ := getLiveEntity_ok hrow
      cases List.mem_cons.mp hid with
      | inl hid =>
        cases hid
        exact ⟨List.mem_map_of_mem hlive.mem, hlive.live⟩
      | inr hid => exact ih h id hid

theorem mem_touchEntity (d : Draft) (id : EntityId) : id ∈ (d.touchEntity (some id)).payload.touches.entities := by
  change id ∈ push d.payload.touches.entities id
  exact mem_push.mpr (.inr rfl)

theorem mem_touchEntities {ids : List (Option EntityId)} : ∀ {d : Draft} {id : EntityId}, some id ∈ ids →
    id ∈ (d.touchEntities ids).payload.touches.entities := by
  induction ids with
  | nil => exact fun h => by cases h
  | cons first ids ih =>
    intro d id hid
    cases List.mem_cons.mp hid with
    | inl hid =>
      cases hid
      exact (quiet_touchEntities ids _).entities (mem_touchEntity d id)
    | inr hid => exact ih hid

theorem Mentioned.addAlias (h : Mentioned s d) (hsound : d.Sound) (hevents : d.store.events = s.events) {id : EntityId}
    {display : String} {o : AliasOptions} (hadd : EntityStore.addAlias c id display o d = .ok d') : Mentioned s d' := by
  rw [EntityStore.addAlias, bind_ok] at hadd
  obtain ⟨_, hcheck, hadd⟩ := hadd
  split at hadd
  · cases hadd
  · rw [bind_ok] at hadd
    obtain ⟨norm, -, hadd⟩ := hadd
    obtain ⟨hrow, hvoid⟩ := checkEntities_ok hcheck id List.mem_cons_self
    rw [voided_congr hevents] at hvoid
    obtain ⟨hadds, hentities⟩ := newAlias_adds hsound hadd
    exact hadds.mentioned h hsound rfl hrow hvoid (hentities (mem_touchEntities List.mem_cons_self))

theorem mentioned_retireAlias (hs : Tables s) {id : Nat}
    (h : retireAlias c id { store := s } = .ok d') : Mentioned s d' := by
  rw [retireAlias, bind_ok] at h
  obtain ⟨row, hget, h⟩ := h
  obtain ⟨hrow, rfl⟩ := getLiveAlias_ok hget
  split at h
  · cases h
  · rename_i hactive
    have hfirst : AliasTouch.id row.aliasId ∉ ({ store := s } : Draft).payload.touches.aliases :=
      fun hin => by cases hin
    obtain ⟨found, hfound, hid, hretires⟩ := projectAlias_retires hs.aliasIds hfirst h
    obtain rfl := hs.alias_unique hfound.mem hrow.mem hid
    exact hretires.mentioned (mentioned_start s) (sound_start hs) hrow.mem (fun hin => by cases hin)
      (not_not.mp hactive) hrow.live

theorem mentioned_createForPlatformId (hs : Tables s) {pid : String}
    (h : createForPlatformId c pid name { store := s } = .ok d') : Mentioned s d' := by
  simp only [createForPlatformId, bind_ok] at h
  obtain ⟨mid, hmid, h⟩ := h
  have hacts : Acts c.env anyWrites { store := s } mid := newEntity_acts hmid
  exact ((mentioned_start s).quiet (quiet_newEntity hmid)).addAlias (hacts.sound (sound_start hs))
    (hacts.derived hs).events h

/-! ### Split -/

/-- The rows that are still to be moved stand as they were read. -/
structure Movable (s : Store) (d : Draft) (row : Alias) : Prop where
  mem : row ∈ d.store.aliases
  old : row.aliasId ∉ d.payload.created.aliases
  active : row.retiredAt = none
  live : row.aliasId ∉ voided Created.aliases s

theorem Mentioned.untouched (h : Mentioned s d) (hrow : Movable s d row) :
    AliasTouch.id row.aliasId ∉ d.payload.touches.aliases := by
  intro htouched
  obtain hin | hin := h.ids _ htouched
  · exact hrow.old hin
  · obtain ⟨a0, -, -, ⟨-, hnot⟩ | ⟨hretired, -⟩⟩ := h.old row hrow.mem hrow.old
    · exact hnot hin
    · exact hretired hrow.active

/-- Moving one alias, in two steps. -/
theorem splitAlias_steps (h : Mentioned s d) (hsound : d.Sound) (hrow : Movable s d row)
    (hsplit : splitAlias c new d row = .ok d') : ∃ mid last,
      RetiresAlias d mid row (some (c.now d.ticks)) ∧ mid.Sound ∧
        newAlias c { row with entityId := new, retiredAt := none }
        [] mid = .ok last ∧ d' = last.touchEntity row.ownerEntityId := by
  simp only [splitAlias, bind_ok] at hsplit
  obtain ⟨mid, hmid, last, hlast, hsplit⟩ := hsplit
  cases hsplit
  obtain ⟨found, hfound, hid, hretires⟩ := projectAlias_retires hsound.tables.aliasIds (h.untouched hrow) hmid
  obtain rfl := hsound.tables.alias_unique hfound.mem hrow.mem hid
  have hacts : Acts c.env anyWrites d mid := projectAlias_acts (fun _ _ _ => trivial) hmid
  exact ⟨mid, last, hretires, hacts.sound hsound, hlast, rfl⟩

theorem Mentioned.splitAlias (h : Mentioned s d) (hsound : d.Sound) (hrow : Movable s d row)
    (hnew : new ∈ d.store.entities.map Entity.entityId) (htouched : new ∈ d.payload.touches.entities)
    (hvoid : new ∉ voided Created.entities s)
    (hsplit : EntityStore.splitAlias c new d row = .ok d') : Mentioned s d' := by
  obtain ⟨mid, last, hretires, hmid, hlast, rfl⟩ := splitAlias_steps h hsound hrow hsplit
  have hmentioned := hretires.mentioned h hsound hrow.mem hrow.old hrow.active hrow.live
  obtain ⟨hadds, -⟩ := newAlias_adds hmid hlast
  refine Mentioned.quiet ?_ (quiet_touchEntity _ _)
  refine hadds.mentioned hmentioned hmid rfl ?_ hvoid (hadds.entities (hretires.entities htouched))
  rw [hretires.rows]
  exact hnew

/-- Another row stays to be moved. -/
theorem Movable.other {other : Alias} (hrow : Movable s d row) (hother : Movable s d other)
    (hne : other.aliasId ≠ row.aliasId) (h : Mentioned s d) (hsound : d.Sound)
    (hsplit : splitAlias c new d row = .ok d') :
    Movable s d' other := by
  obtain ⟨mid, last, hretires, hmid, hlast, rfl⟩ := splitAlias_steps h hsound hrow hsplit
  obtain ⟨hadds, -⟩ := newAlias_adds hmid hlast
  have hquiet := quiet_touchEntity last row.ownerEntityId
  refine ⟨?_, ?_, hother.active, hother.live⟩
  · rw [hquiet.aliases, hadds.aliases, hretires.aliases]
    exact List.mem_append_left _ ((Column.mem_write aliasColumn).mpr (.inl ⟨hother.mem, hne⟩))
  · rw [hquiet.created, hadds.created, hretires.created, List.mem_append, not_or, List.mem_singleton]
    refine ⟨hother.old, ?_⟩
    rw [hadds.id, hretires.nextAlias]
    have hlt := hsound.tables.aliasBelow other hother.mem
    omega

/-- The draft of a split before it moves an alias. -/
structure Splitting (s : Store) (new : EntityId) (d : Draft) : Prop where
  mentioned : Mentioned s d
  sound : d.Sound
  entity : new ∈ d.store.entities.map Entity.entityId
  touched : new ∈ d.payload.touches.entities
  live : new ∉ voided Created.entities s

theorem Splitting.next (h : Splitting s new d) (hrow : Movable s d row)
    (hsplit : splitAlias c new d row = .ok d') : Splitting s new d' := by
  obtain ⟨mid, last, hretires, hmid, hlast, rfl⟩ := splitAlias_steps h.mentioned h.sound hrow hsplit
  obtain ⟨hadds, -⟩ := newAlias_adds hmid hlast
  have hquiet := quiet_touchEntity last row.ownerEntityId
  have hacts : Acts c.env anyWrites mid (last.touchEntity row.ownerEntityId) :=
    (newAlias_acts hmid rfl hlast).trans (touchEntity_acts _ _)
  refine ⟨h.mentioned.splitAlias h.sound hrow h.entity h.touched h.live hsplit, hacts.sound hmid,
    hquiet.rows ?_, ?_, h.live⟩
  · rw [hadds.rows, hretires.rows]
    exact h.entity
  · exact hquiet.entities (hadds.entities (hretires.entities h.touched))

theorem Splitting.loop (rows : List Alias) : ∀ {d d' : Draft}, Splitting s new d → (rows.map Alias.aliasId).Nodup →
    (∀ r ∈ rows, Movable s d r) → rows.foldlM (splitAlias c new) d = .ok d' → Splitting s new d' := by
  induction rows with
  | nil =>
    intro d d' h _ _ hrun
    cases hrun
    exact h
  | cons row rows ih =>
    intro d d' h hnodup hrows hrun
    rw [List.foldlM_cons, bind_ok] at hrun
    obtain ⟨mid, hmid, hrun⟩ := hrun
    rw [List.map_cons, List.nodup_cons] at hnodup
    have hrow := hrows row List.mem_cons_self
    refine ih (h.next hrow hmid) hnodup.2 (fun r hr => ?_) hrun
    have hne : r.aliasId ≠ row.aliasId := fun he => hnodup.1 (he ▸ List.mem_map_of_mem hr)
    exact hrow.other (hrows r (List.mem_cons_of_mem _ hr)) hne h.mentioned h.sound hmid

/-- What a split has read and checked before it writes. -/
structure SplitOk (c : Context) (s : Store) (entityId : EntityId) (aliasIds : List Nat)
    (aliases : List Alias) : Prop where
  read : aliasIds.eraseDups.mapM (getLiveAlias c.env s) = .ok aliases
  rows : ∀ r ∈ aliases, ReadableAlias c.env s r ∧ r.entityId = entityId ∧ r.retiredAt = none
  nodup : (aliases.map Alias.aliasId).Nodup

theorem splitOk {aliases : List Alias} {notes : List Note}
    (hread : aliasIds.eraseDups.mapM (getLiveAlias c.env s) = .ok aliases)
    (hforeign : ¬ (aliases.any (fun r => r.entityId ≠ entityId || r.retiredAt ≠ none) ||
      notes.any (fun r => r.entityId ≠ some entityId || r.supersededBy ≠ none)) = true) :
    SplitOk c s entityId aliasIds aliases := by
  refine ⟨hread, fun r hr => ?_, ?_⟩
  · obtain ⟨id, -, hget⟩ := mapM_mem hread hr
    rw [Bool.or_eq_true, not_or] at hforeign
    have hr' := List.any_eq_false.mp (Bool.eq_false_iff.mpr hforeign.1) r hr
    simp only [Bool.or_eq_true, decide_eq_true_eq, not_or, not_not] at hr'
    exact ⟨(getLiveAlias_ok hget).1, hr'.1, hr'.2⟩
  · rw [getLiveAliases_ids hread]
    exact nodup_eraseDups _ aliasIds (Nat.le_refl _)

/-- The draft with the new entity of a split. -/
theorem splitting_start (hs : Tables s) (hvoid : ∀ id ∈ voided Created.entities s, id ∈ s.entities.map Entity.entityId)
    {mid : Draft} (hmid : newEntity c name kind { store := s } = .ok mid) :
    Splitting s c.newEntity (mid.touchEntity (some entityId)) := by
  have hacts : Acts c.env anyWrites { store := s } (mid.touchEntity (some entityId)) :=
    (newEntity_acts hmid).trans (touchEntity_acts _ _)
  have hquiet := (quiet_newEntity hmid).trans (quiet_touchEntity mid (some entityId))
  refine ⟨(mentioned_start s).quiet hquiet, hacts.sound (sound_start hs), ?_, ?_, ?_⟩
  · apply (quiet_touchEntity mid (some entityId)).rows
    rw [newEntity, bind_ok] at hmid
    obtain ⟨t, ht, hmid⟩ := hmid
    unfold insertEntity at ht
    split at ht
    · cases ht
    · cases ht
      cases hmid
      exact List.mem_map.mpr ⟨_, List.mem_append_right _ (List.mem_singleton.mpr rfl), rfl⟩
  · apply (quiet_touchEntity mid (some entityId)).entities
    rw [newEntity, bind_ok] at hmid
    obtain ⟨t, -, hmid⟩ := hmid
    cases hmid
    exact mem_touchEntity _ _
  · intro hin
    have hold := hvoid _ hin
    rw [newEntity, bind_ok] at hmid
    obtain ⟨t, ht, -⟩ := hmid
    unfold insertEntity at ht
    split at ht
    · cases ht
    · rename_i hfresh
      obtain ⟨row, hrow, hid⟩ := List.mem_map.mp hold
      exact hfresh (List.any_eq_true.mpr ⟨row, hrow, by simpa using hid⟩)

theorem SplitOk.movable {aliases : List Alias} (h : SplitOk c s entityId aliasIds aliases)
    (hquiet : Quiet { store := s } d) {r : Alias} (hr : r ∈ aliases) : Movable s d r := by
  obtain ⟨hrow, -, hactive⟩ := h.rows r hr
  refine ⟨?_, ?_, hactive, hrow.live⟩
  · rw [hquiet.aliases]
    exact hrow.mem
  · rw [hquiet.created]
    exact fun hin => by cases hin

theorem mentioned_split (hs : Tables s) (hvoid : ∀ id ∈ voided Created.entities s, id ∈ s.entities.map Entity.entityId)
    {noteIds : List NoteId} {kind : Option Kind}
    (h : split c entityId aliasIds noteIds name kind { store := s } = .ok d') : Mentioned s d' := by
  simp only [split, bind_ok] at h
  obtain ⟨entity, -, h⟩ := h
  split at h
  · cases h
  · simp only [bind_ok] at h
    obtain ⟨aliases, haliases, notes, -, h⟩ := h
    split at h
    · cases h
    · split at h
      · cases h
      · rename_i hforeign
        simp only [bind_ok] at h
        obtain ⟨mid, hmid, last, hlast, h⟩ := h
        have hok := splitOk haliases hforeign
        have hquiet := (quiet_newEntity hmid).trans (quiet_touchEntity mid (some entityId))
        have hmoved := (splitting_start hs hvoid hmid).loop aliases hok.nodup (fun r hr => hok.movable hquiet hr) hlast
        exact foldlM_invariant (fun _ _ _ _ ha hb => ha.quiet (quiet_splitNote hb)) hmoved.mentioned h

/-! ## Commits -/

/-- A commit other than an undo: nothing, or an event that mentions what it did to the aliases. -/
theorem execute_mentioned {op : Op} {s' : Store} {r : Returned} (hs : Tables s)
    (hvoid : ∀ id ∈ voided Created.entities s, id ∈ s.entities.map Entity.entityId) (h : execute c s op = .ok (s', r)) :
    s' = s ∨ (∃ id, op = .undo id ∧ undo c id s = .ok s') ∨ ∃ d name, name ≠ .undo ∧
      Acts c.env anyWrites { store := s } d ∧
      Mentioned s d ∧ s' = appendEvent name d.payload none d.store := by
  have hlogged : ∀ {name : OpName} {body : Draft → Except Refusal Draft} {r' : Returned}, name ≠ .undo →
      (∀ d, body { store := s } = .ok d → Acts c.env anyWrites { store := s } d ∧ Mentioned s d) →
      logged name body r' s = .ok (s', r) → s' = s ∨ (∃ id, op = .undo id ∧ undo c id s = .ok s') ∨
        ∃ d name, name ≠ .undo ∧ Acts c.env anyWrites { store := s } d ∧ Mentioned s d ∧
          s' = appendEvent name d.payload none d.store := by
    intro name body r' hname hbody hrun
    obtain ⟨d, hd, rfl⟩ := logged_ok hrun
    exact .inr (.inr ⟨d, name, hname, (hbody d hd).1, (hbody d hd).2, rfl⟩)
  have hany : ∀ {d : Draft}, Acts c.env (plainWrites s) { store := s } d → Acts c.env anyWrites { store := s } d :=
    fun hacts => hacts.mono (fun _ _ _ => trivial) (fun _ _ _ _ => trivial) (fun _ => trivial)
  have hquiet : ∀ {d : Draft}, Quiet { store := s } d → Mentioned s d := (mentioned_start s).quiet
  cases op with
  | createEntity name kind =>
    exact hlogged (by decide) (fun d hd => ⟨newEntity_acts hd, hquiet (quiet_newEntity hd)⟩) h
  | addAlias id display options =>
    refine hlogged (by decide) (fun d hd => ⟨addAlias_acts (sound_start hs) hd, ?_⟩) h
    exact (mentioned_start s).addAlias (sound_start hs) rfl hd
  | retireAlias id =>
    exact hlogged (by decide) (fun d hd => ⟨hany (retireAlias_acts (sound_start hs) hd), mentioned_retireAlias hs hd⟩) h
  | addNote text options => exact hlogged (by decide) (fun d hd => ⟨addNote_acts hd, hquiet (quiet_addNote hd)⟩) h
  | changeKind id kind => exact hlogged (by decide) (fun d hd => ⟨changeKind_acts hd, hquiet (quiet_changeKind hd)⟩) h
  | merge into fromEntity allow =>
    exact hlogged (by decide) (fun d hd => ⟨merge_acts_any hd, hquiet (quiet_merge hd)⟩) h
  | split id aliasIds noteIds name kind =>
    exact hlogged (by decide) (fun d hd => ⟨hany (split_acts (sound_start hs) hd), mentioned_split hs hvoid hd⟩) h
  | attachOrCreate pid name verified =>
    simp only [execute, attachOrCreate, bind_ok] at h
    obtain ⟨norm, -, h⟩ := h
    split at h
    · cases h
    · simp only [bind_ok] at h
      obtain ⟨holder, -, h⟩ := h
      split at h
      · cases h
        exact .inl rfl
      · refine hlogged (by decide) (fun d hd => ⟨?_, mentioned_createForPlatformId hs hd⟩) h
        exact createForPlatformId_acts (sound_start hs) hd
  | overrideKey subject id scope owner =>
    exact hlogged (by decide) (fun d hd => ⟨overrideKey_acts trivial hd, hquiet (quiet_overrideKey hd)⟩) h
  | undo id =>
    simp only [execute] at h
    cases hu : undo c id s with
    | error e =>
      rw [hu] at h
      cases h
    | ok s1 =>
      rw [hu] at h
      cases h
      exact .inr (.inl ⟨id, rfl, hu⟩)

end EntityStore
