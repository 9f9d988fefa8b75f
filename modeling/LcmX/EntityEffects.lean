import LcmX.EntityOps

/-!
# What an operation can do

Every operation is a sequence of acts on its draft: bookkeeping in the payload,
a new row that is recorded as created, or the write of a projected field that is
recorded with the value it had. The invariants are proved for the acts.
-/
namespace EntityStore

open ChangeLog Fallible Draft

/-! ## Rows that are read -/

theorem getRow_ok {α : Type} {x : Option α} {void : Bool} {r : α} :
    getRow x void = .ok r ↔ x = some r ∧ void = false := by
  cases x with
  | none => simp [getRow]
  | some a => cases void <;> simp [getRow]

/-- A row the trusted reader finds. -/
structure ReadableAlias (env : Env) (s : Store) (row : Alias) : Prop where
  mem : row ∈ s.aliases
  visible : aliasVisible env trusted row = true
  live : row.aliasId ∉ voided Created.aliases s

structure ReadableNote (env : Env) (s : Store) (row : Note) : Prop where
  mem : row ∈ s.notes
  visible : noteVisible env trusted row = true
  live : row.noteId ∉ voided Created.notes s

structure LiveEntity (s : Store) (row : Entity) : Prop where
  mem : row ∈ s.entities
  live : row.entityId ∉ voided Created.entities s

theorem findEntity_some {entities : List Entity} {id : EntityId} {row : Entity}
    (h : findEntity entities id = some row) :
    row ∈ entities ∧ row.entityId = id :=
  ⟨List.mem_of_find?_eq_some h, by simpa using List.find?_some h⟩

theorem getLiveEntity_ok {s : Store} {id : EntityId} {row : Entity} (h : getLiveEntity s id = .ok row) :
    LiveEntity s row ∧ row.entityId = id := by
  unfold getLiveEntity at h
  split at h
  · cases h
  · rename_i r hfind
    split at h
    · cases h
    · rename_i hlive
      cases h
      obtain ⟨hmem, hid⟩ := findEntity_some hfind
      exact ⟨⟨hmem, hid ▸ hlive⟩, hid⟩

theorem getAlias_some {env : Env} {s : Store} {id : Nat} {row : Alias} (h : getAlias env s id = some row) :
    row ∈ s.aliases ∧ row.aliasId = id ∧ aliasVisible env trusted row = true := by
  have hp := List.find?_some h
  simp only [Bool.and_eq_true, decide_eq_true_eq] at hp
  exact ⟨List.mem_of_find?_eq_some h, hp.1, hp.2⟩

theorem getLiveAlias_ok {env : Env} {s : Store} {id : Nat} {row : Alias} (h : getLiveAlias env s id = .ok row) :
    ReadableAlias env s row ∧ row.aliasId = id := by
  obtain ⟨hget, hlive⟩ := getRow_ok.mp h
  obtain ⟨hmem, hid, hvis⟩ := getAlias_some hget
  exact ⟨⟨hmem, hvis, by simpa [hid] using hlive⟩, hid⟩

theorem getLiveNote_ok {env : Env} {s : Store} {id : NoteId} {row : Note} (h : getLiveNote env s id = .ok row) :
    ReadableNote env s row ∧ row.noteId = id := by
  obtain ⟨hget, hlive⟩ := getRow_ok.mp h
  have hp := List.find?_some hget
  simp only [Bool.and_eq_true, decide_eq_true_eq] at hp
  exact ⟨⟨List.mem_of_find?_eq_some hget, hp.2, by simpa [hp.1] using hlive⟩, hp.1⟩

/-! ## Acts -/

def FieldChange.toEntity : FieldChange → Option (Change EntityId (Status × Option EntityId))
  | .entity c => some c
  | _ => none

def FieldChange.toAlias : FieldChange → Option (Change Nat (Option Rat))
  | .aliasRow c => some c
  | _ => none

def FieldChange.toNote : FieldChange → Option (Change NoteId (Option NoteId))
  | .note c => some c
  | _ => none

/-- The changes of one table. -/
def entityLog (changes : List FieldChange) : List (Change EntityId (Status × Option EntityId)) :=
  changes.filterMap FieldChange.toEntity

def aliasLog (changes : List FieldChange) : List (Change Nat (Option Rat)) := changes.filterMap FieldChange.toAlias

def noteLog (changes : List FieldChange) : List (Change NoteId (Option NoteId)) := changes.filterMap FieldChange.toNote

/-- The writes an operation may make. -/
structure Writes where
  entity : EntityId → Status × Option EntityId → Prop
  aliasRow : Nat → Option Rat → Option Rat → Prop
  keys : Prop

namespace Draft

def withEntity (d : Draft) (row : Entity) : Draft :=
  ({ d with store := { d.store with entities := d.store.entities ++ [row] } }.setCreated
    { d.payload.created with entities := d.payload.created.entities ++ [row.entityId] }).touchEntity (some row.entityId)

def withAlias (d : Draft) (row : Alias) : Draft :=
  { d with
    store := { d.store with aliases := d.store.aliases ++ [row], nextAlias := d.store.nextAlias + 1 } }.setCreated
    { d.payload.created with aliases := d.payload.created.aliases ++ [row.aliasId] }

def withNote (d : Draft) (row : Note) : Draft :=
  { d with store := { d.store with notes := d.store.notes ++ [row] } }.setCreated
    { d.payload.created with notes := d.payload.created.notes ++ [row.noteId] }

def writeEntity (d : Draft) (row : Entity) (v : Status × Option EntityId) : Draft :=
  { d with store := setEntityStatus row.entityId v d.store }.addChange
    (.entity ⟨row.entityId, entityColumn.get row, v⟩)

def writeAlias (d : Draft) (row : Alias) (v : Option Rat) : Draft :=
  { d with
    store := { d.store with aliases := aliasColumn.write row.aliasId v d.store.aliases }
    ticks := d.ticks + 1 }.addChange (.aliasRow ⟨row.aliasId, row.retiredAt, v⟩)

def writeNote (d : Draft) (row : Note) (v : Option NoteId) : Draft :=
  { d with store := setNoteSuperseded row.noteId v d.store }.addChange (.note ⟨row.noteId, row.supersededBy, v⟩)

end Draft

inductive Act (env : Env) (w : Writes) : Draft → Draft → Prop
  | log (d : Draft) (p : Payload) (hcreated : p.created = d.payload.created) (hchanges : p.changes = d.payload.changes)
      (htouches : d.payload.touches.entities ⊆ p.touches.entities)
      (htouched : ∀ id, AliasTouch.id id ∈ p.touches.aliases →
        AliasTouch.id id ∈ d.payload.touches.aliases ∨ id ∈ d.store.aliases.map Alias.aliasId)
      (hoverride : p.override = d.payload.override ∨ w.keys) : Act env w d { d with payload := p }
  | entity (d : Draft) (row : Entity) (hfresh : row.entityId ∉ d.store.entities.map Entity.entityId)
      (hfield : entityColumn.get row = (.active, none)) : Act env w d (d.withEntity row)
  | aliasRow (d : Draft) (row : Alias) (hid : row.aliasId = d.store.nextAlias) (hfield : row.retiredAt = none)
      (hindex : indexConflict d.store row = false) (hvisible : aliasVisible env trusted row = true) :
      Act env w d (d.withAlias row)
  | note (d : Draft) (row : Note) (hfresh : row.noteId ∉ d.store.notes.map Note.noteId)
      (hfield : row.supersededBy = none) : Act env w d (d.withNote row)
  | writeEntity (d : Draft) (row : Entity) (v : Status × Option EntityId) (hrow : LiveEntity d.store row)
      (hw : w.entity row.entityId v) : Act env w d (d.writeEntity row v)
  | writeAlias (d : Draft) (row : Alias) (v : Option Rat) (hrow : ReadableAlias env d.store row)
      (hindex : v = none → indexConflict d.store row = false) (hw : w.aliasRow row.aliasId row.retiredAt v) :
      Act env w d (d.writeAlias row v)
  | writeNote (d : Draft) (row : Note) (v : Option NoteId) (hrow : ReadableNote env d.store row) :
      Act env w d (d.writeNote row v)
  | keys (d : Draft) (keys : List KeyRow) (nextKey ticks : Nat) (p : Payload)
      (hcreated : ∃ l, p.created = { d.payload.created with keys := l })
      (hchanges : p.changes = d.payload.changes ∨ ∃ ch, p.changes = d.payload.changes ++ [.key ch])
      (htouches : d.payload.touches.entities ⊆ p.touches.entities)
      (htouched : p.touches.aliases = d.payload.touches.aliases) (hw : w.keys) :
      Act env w d { store := { d.store with keys := keys, nextKey := nextKey }, payload := p, ticks := ticks }

abbrev Acts (env : Env) (w : Writes) : Draft → Draft → Prop := Relation.ReflTransGen (Act env w)

/-- More writes may be allowed. -/
theorem Act.mono {env : Env} {v w : Writes} (hentity : ∀ id x, v.entity id x → w.entity id x)
    (halias : ∀ id x y, v.aliasRow id x y → w.aliasRow id x y) (hkeys : v.keys → w.keys)
    {d d' : Draft} (h : Act env v d d') :
    Act env w d d' := by
  cases h with
  | log p hcreated hchanges htouches htouched hoverride =>
    exact .log d p hcreated hchanges htouches htouched (hoverride.imp_right hkeys)
  | entity row hfresh hfield => exact .entity d row hfresh hfield
  | aliasRow row hid hfield hindex hvisible => exact .aliasRow d row hid hfield hindex hvisible
  | note row hfresh hfield => exact .note d row hfresh hfield
  | writeEntity row v hrow hw => exact .writeEntity d row v hrow (hentity _ _ hw)
  | writeAlias row v hrow hindex hw => exact .writeAlias d row v hrow hindex (halias _ _ _ hw)
  | writeNote row v hrow => exact .writeNote d row v hrow
  | keys keys nextKey ticks p hcreated hchanges htouches htouched hw =>
    exact .keys d keys nextKey ticks p hcreated hchanges htouches htouched (hkeys hw)

theorem Acts.mono {env : Env} {v w : Writes} (hentity : ∀ id x, v.entity id x → w.entity id x)
    (halias : ∀ id x y, v.aliasRow id x y → w.aliasRow id x y) (hkeys : v.keys → w.keys)
    {d d' : Draft} (h : Acts env v d d') :
    Acts env w d d' :=
  Relation.ReflTransGen.mono (fun _ _ hact => Act.mono hentity halias hkeys hact) _ _ h

/-! ## Primitives as acts -/

section Primitives

variable {env : Env} {w : Writes}

theorem subset_push {α : Type} [DecidableEq α] (l : List α) (x : α) : l ⊆ push l x := by
  unfold push
  split
  · exact List.Subset.refl l
  · exact List.subset_append_left l [x]

theorem touch_act (d : Draft) (t : Touches) (h : d.payload.touches.entities ⊆ t.entities)
    (ha : t.aliases = d.payload.touches.aliases) : Act env w d (d.setTouches t) :=
  .log d _ rfl rfl h (fun _ hid => Or.inl (ha ▸ hid)) (Or.inl rfl)

theorem touchEntity_acts (d : Draft) (id : Option EntityId) : Acts env w d (d.touchEntity id) := by
  cases id with
  | none => exact .refl
  | some id => exact .single (touch_act d _ (subset_push _ _) rfl)

theorem touchEntities_acts (ids : List (Option EntityId)) : ∀ d : Draft, Acts env w d (d.touchEntities ids) := by
  induction ids with
  | nil => exact fun d => .refl
  | cons id ids ih => exact fun d => (touchEntity_acts d id).trans (ih _)

theorem touchNote_acts (d : Draft) (id : Option NoteId) : Acts env w d (d.touchNote id) := by
  cases id with
  | none => exact .refl
  | some id => exact .single (touch_act d _ (List.Subset.refl _) rfl)

theorem touchKey_acts (d : Draft) (key : String × Option EntityId) : Acts env w d (d.touchKey key) :=
  .single (touch_act d _ (List.Subset.refl _) rfl)

theorem mem_push {α : Type} [DecidableEq α] {l : List α} {x y : α} : y ∈ push l x ↔ y ∈ l ∨ y = x := by
  unfold push
  split
  · rename_i h
    constructor
    · exact Or.inl
    · rintro (h' | rfl)
      · exact h'
      · exact h
  · simp

variable {id : Nat} {d d' : Draft} {v : Stamp} {c : Context}

theorem mem_aliasTouches {touches : List AliasTouch} {row : Alias}
    (h : AliasTouch.id id ∈ aliasTouches touches row) : AliasTouch.id id ∈ touches ∨ id = row.aliasId := by
  unfold aliasTouches at h
  simp only at h
  split at h
  · simpa [mem_push] using h
  · simpa [mem_push] using h

theorem touchAlias_acts (h : touchAlias env d id = .ok d') : Acts env w d d' := by
  unfold touchAlias at h
  split at h
  · cases h
    exact .refl
  · split at h
    · cases h
    · rename_i row hget
      cases h
      refine .single (.log d _ rfl rfl (List.Subset.refl _) (fun x hx => ?_) (Or.inl rfl))
      cases mem_aliasTouches hx with
      | inl hx => exact Or.inl hx
      | inr hx =>
        rw [hx]
        exact Or.inr (List.mem_map_of_mem (getAlias_some hget).1)

theorem projectEntity_acts {id : EntityId} {v : Status × Option EntityId} (hw : w.entity id v)
    (h : projectEntity id v d = .ok d') : Acts env w d d' := by
  rw [projectEntity, bind_ok] at h
  obtain ⟨row, hget, hd'⟩ := h
  obtain ⟨hrow, rfl⟩ := getLiveEntity_ok hget
  cases hd'
  exact .trans (.single (.writeEntity d row v hrow hw)) (touchEntity_acts _ _)

theorem projectNote_acts {id : NoteId} {v : Option NoteId}
    (h : projectNote c id v d = .ok d') : Acts c.env w d d' := by
  rw [projectNote, bind_ok] at h
  obtain ⟨row, hget, hd'⟩ := h
  obtain ⟨hrow, rfl⟩ := getLiveNote_ok hget
  cases hd'
  exact .trans (.single (.writeNote d row v hrow)) ((touchNote_acts _ _).trans (touchEntity_acts _ _))

/-- What a write of `retired_at` has read and checked. -/
theorem projectAlias_ok (h : projectAlias c id v d = .ok d') :
    ∃ row mid, ReadableAlias c.env d.store row ∧ row.aliasId = id ∧
      (stamp c d v = none → indexConflict d.store row = false) ∧
      touchAlias c.env (d.writeAlias row (stamp c d v)) id = .ok mid ∧ d' = mid.touchEntity (some row.entityId) := by
  rw [projectAlias, bind_ok] at h
  obtain ⟨row, hget, h⟩ := h
  obtain ⟨hrow, rfl⟩ := getLiveAlias_ok hget
  rw [bind_ok] at h
  obtain ⟨s, hs, h⟩ := h
  rw [bind_ok] at h
  obtain ⟨mid, hmid, hd'⟩ := h
  cases hd'
  unfold setAliasRetired at hs
  split at hs
  · cases hs
  · rename_i hindex
    cases hs
    refine ⟨row, mid, hrow, rfl, fun hv => ?_, hmid, rfl⟩
    simpa [hv] using hindex

theorem projectAlias_acts
    (hw : ∀ row ∈ d.store.aliases, row.aliasId = id → w.aliasRow id row.retiredAt (stamp c d v))
    (h : projectAlias c id v d = .ok d') : Acts c.env w d d' := by
  obtain ⟨row, mid, hrow, rfl, hindex, hmid, rfl⟩ := projectAlias_ok h
  have hwrite : Act c.env w d (d.writeAlias row (stamp c d v)) := .writeAlias d row _ hrow hindex (hw row hrow.mem rfl)
  exact .trans (.single hwrite) ((touchAlias_acts hmid).trans (touchEntity_acts _ _))

theorem projectKey_acts (hw : w.keys)
    (h : projectKey c id v d = .ok d') : Acts env w d d' := by
  rw [projectKey, bind_ok] at h
  obtain ⟨row, -, h⟩ := h
  rw [bind_ok] at h
  obtain ⟨s, hs, hd'⟩ := h
  unfold setKeyRetired at hs
  split at hs
  · cases hs
  · cases hs
    cases hd'
    have hkey : Act env w d ({ d with
        store := { d.store with keys := keyColumn.write row.keyId (stamp c d v) d.store.keys }
        ticks := d.ticks + 1 }.addChange (.key ⟨id, row.retiredAt, stamp c d v⟩)) :=
      .keys d _ _ _ _ ⟨d.payload.created.keys, rfl⟩ (Or.inr ⟨_, rfl⟩) (List.Subset.refl _) rfl hw
    exact .trans (.single hkey) ((touchKey_acts _ _).trans (touchEntity_acts _ _))

theorem newEntity_acts {name : String} {kind : Kind} (h : newEntity c name kind d = .ok d') :
    Acts env w d d' := by
  rw [newEntity, bind_ok] at h
  obtain ⟨s, hs, hd'⟩ := h
  unfold insertEntity at hs
  split at hs
  · cases hs
  · rename_i hany
    cases hs
    cases hd'
    refine .single (.entity d ⟨c.newEntity, kind, name, .active, none⟩ (fun hin => hany ?_) rfl)
    obtain ⟨r, hr, hid⟩ := List.mem_map.mp hin
    exact List.any_eq_true.mpr ⟨r, hr, by simpa using hid⟩

theorem newNote_acts {row : Note} (h : newNote c row d = .ok d') : Acts env w d d' := by
  rw [newNote, bind_ok] at h
  obtain ⟨s, hs, hd'⟩ := h
  unfold insertNote at hs
  split at hs
  · cases hs
  · rename_i hany
    cases hs
    cases hd'
    rw [Bool.or_eq_true, not_or] at hany
    refine .trans (.single (.note d { row with noteId := nextNote c d, supersededBy := none }
      (fun hin => hany.1 ?_) rfl))
      (touchNote_acts _ _)
    obtain ⟨r, hr, hid⟩ := List.mem_map.mp hin
    exact List.any_eq_true.mpr ⟨r, hr, by simpa using hid⟩

end Primitives

end EntityStore
