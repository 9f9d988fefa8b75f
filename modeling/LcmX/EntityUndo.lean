import LcmX.EntityInverse

/-!
# Undo of what was recorded

An operation other than an override leaves a payload whose rows can be read
again: the aliases it made, and the rows it wrote. As long as these rows stand
as it left them, its undo is not refused.
-/
namespace EntityStore

open ChangeLog Fallible Draft

/-! ## Reads and writes that succeed -/

variable {s t : Store} {env : Env} {d d' : Draft} {c : Context} {ch : Change Nat (Option Rat)}
  {p : Payload}

theorem getLiveEntity_total {row : Entity} (h : LiveEntity s row) :
    ∃ r, getLiveEntity s row.entityId = .ok r := by
  cases hf : findEntity s.entities row.entityId with
  | none => exact absurd (List.find?_eq_none.mp hf row h.mem) (by simp)
  | some r => exact ⟨r, by rw [getLiveEntity, hf]; exact if_neg h.live⟩

theorem getLiveAlias_total {row : Alias} (h : ReadableAlias env s row) :
    ∃ r, getLiveAlias env s row.aliasId = .ok r := by
  cases hf : getAlias env s row.aliasId with
  | none => exact absurd (List.find?_eq_none.mp hf row h.mem) (by simp [h.visible])
  | some r => exact ⟨r, getRow_ok.mpr ⟨hf, by simp [h.live]⟩⟩

theorem getLiveNote_total {row : Note} (h : ReadableNote env s row) :
    ∃ r, getLiveNote env s row.noteId = .ok r := by
  cases hf : getNote env s row.noteId with
  | none => exact absurd (List.find?_eq_none.mp hf row h.mem) (by simp [h.visible])
  | some r => exact ⟨r, getRow_ok.mpr ⟨hf, by simp [h.live]⟩⟩

theorem projectEntity_total {row : Entity} (h : LiveEntity d.store row) (v : Status × Option EntityId) :
    ∃ d', projectEntity row.entityId v d = .ok d' := by
  obtain ⟨r, hr⟩ := getLiveEntity_total h
  exact ⟨_, by rw [projectEntity, hr]; rfl⟩

theorem projectNote_total {row : Note} (h : ReadableNote c.env d.store row)
    (v : Option NoteId) : ∃ d', projectNote c row.noteId v d = .ok d' := by
  obtain ⟨r, hr⟩ := getLiveNote_total h
  exact ⟨_, by rw [projectNote, hr]; rfl⟩

theorem touchAlias_total {row : Alias} (hmem : row ∈ d.store.aliases)
    (hvisible : aliasVisible env trusted row = true) : ∃ d', touchAlias env d row.aliasId = .ok d' := by
  cases hf : getAlias env d.store row.aliasId with
  | none => exact absurd (List.find?_eq_none.mp hf row hmem) (by simp [hvisible])
  | some r =>
    unfold touchAlias
    split
    · exact ⟨d, rfl⟩
    · rw [hf]
      exact ⟨_, rfl⟩

/-- A write of `retired_at` succeeds when the row is read and the index is free. -/
theorem projectAlias_total {row : Alias} (h : ReadableAlias c.env d.store row) (v : Stamp)
    (hindex : stamp c d v = none → ∀ r ∈ d.store.aliases, r.aliasId = row.aliasId → indexConflict d.store r = false) :
    ∃ d', projectAlias c row.aliasId v d = .ok d' := by
  obtain ⟨r, hr⟩ := getLiveAlias_total h
  obtain ⟨hread, hid⟩ := getLiveAlias_ok hr
  have hset : setAliasRetired r (stamp c d v) d.store =
      .ok { d.store with aliases := aliasColumn.write row.aliasId (stamp c d v) d.store.aliases } := by
    rw [setAliasRetired, hid]
    apply if_neg
    intro hconflict
    rw [Bool.and_eq_true, decide_eq_true_eq] at hconflict
    rw [hindex hconflict.1 r hread.mem hid] at hconflict
    exact Bool.false_ne_true hconflict.2
  -- the row is read back with its new value
  have hwritten : aliasColumn.set (stamp c d v) r ∈ (d.writeAlias r (stamp c d v)).store.aliases :=
    (Column.mem_write aliasColumn).mpr (Or.inr ⟨r, hread.mem, rfl, rfl⟩)
  obtain ⟨mid, hmid⟩ := touchAlias_total hwritten hread.visible
  have hmid' : touchAlias c.env (d.writeAlias r (stamp c d v)) row.aliasId = .ok mid := by
    rw [← hid]
    exact hmid
  rw [writeAlias, hid] at hmid'
  refine ⟨mid.touchEntity (some r.entityId), ?_⟩
  rw [projectAlias, bind_ok]
  refine ⟨r, hr, ?_⟩
  rw [bind_ok]
  refine ⟨_, hset, ?_⟩
  rw [bind_ok]
  exact ⟨mid, hmid', rfl⟩

/-! ## What an operation leaves for its undo -/

/-- The row of the change can be read. -/
def Fixable (env : Env) (s : Store) : FieldChange → Prop
  | .entity ch => ∃ row, LiveEntity s row ∧ row.entityId = ch.id
  | .aliasRow ch => ∃ row, ReadableAlias env s row ∧ row.aliasId = ch.id
  | .note ch => ∃ row, ReadableNote env s row ∧ row.noteId = ch.id
  | .key _ => False

/-- The payload of a step from `s`, and the store it is to be undone on. -/
structure Ready (env : Env) (s t : Store) (p : Payload) : Prop where
  changes : ∀ ch ∈ p.changes, Fixable env t ch
  created : ∀ id ∈ p.created.aliases, s.nextAlias ≤ id ∧ ∃ row, ReadableAlias env t row ∧ row.aliasId = id
  -- the aliases that were retired are those of `s`
  retired : ∀ ch ∈ aliasLog p.changes, ch.before = none ∧ ∀ row ∈ t.aliases, row.aliasId = ch.id →
    row.retiredAt ≠ none ∧ aliasColumn.set none row ∈ s.aliases
  -- an unretired alias is new or stands as in `s`
  kept : ∀ row ∈ t.aliases, row.retiredAt = none → row.aliasId ∈ p.created.aliases ∨ row ∈ s.aliases
  noKeys : p.created.keys = []
  noOverride : p.override = none

/-- The other operations: a merge writes an entity too. -/
def calmWrites (s : Store) : Writes := { plainWrites s with entity := fun _ _ => True }

theorem ReadableAlias.of_mem {row : Alias} (h : ReadableAlias env s row) {r : Alias}
    (hr : r ∈ t.aliases) (htext : aliasColumn.set none r = aliasColumn.set none row) (hevents : t.events = s.events) :
    ReadableAlias env t r ∧ r.aliasId = row.aliasId := by
  have hid : r.aliasId = row.aliasId := (congrArg Alias.aliasId htext :)
  have hsources : r.sourceStoreIds = row.sourceStoreIds := (congrArg Alias.sourceStoreIds htext :)
  refine ⟨⟨hr, ?_, ?_⟩, hid⟩
  · rw [aliasVisible, hsources]
    exact h.visible
  · rw [hid, voided_congr hevents]
    exact h.live

theorem ReadableNote.of_mem {row : Note} (h : ReadableNote env s row) {r : Note}
    (hr : r ∈ t.notes) (htext : noteColumn.set none r = noteColumn.set none row) (hevents : t.events = s.events) :
    ReadableNote env t r ∧ r.noteId = row.noteId := by
  have hid : r.noteId = row.noteId := (congrArg Note.noteId htext :)
  have hcites : r.cites = row.cites := (congrArg Note.cites htext :)
  have hrevisions : r.citesFileRevisions = row.citesFileRevisions := (congrArg Note.citesFileRevisions htext :)
  refine ⟨⟨hr, ?_, ?_⟩, hid⟩
  · rw [noteVisible, hcites, hrevisions]
    exact h.visible
  · rw [hid, voided_congr hevents]
    exact h.live

/-- The rows of `s` are still there: projected fields may differ. -/
structure Covers (s t : Store) : Prop where
  entities : s.entities.map Entity.entityId ⊆ t.entities.map Entity.entityId
  aliases : s.aliases.map (aliasColumn.set none) ⊆ t.aliases.map (aliasColumn.set none)
  notes : s.notes.map (noteColumn.set none) ⊆ t.notes.map (noteColumn.set none)
  events : t.events = s.events

theorem Covers.entity (h : Covers s t) {row : Entity} (hrow : LiveEntity s row) :
    ∃ r, LiveEntity t r ∧ r.entityId = row.entityId := by
  obtain ⟨r, hr, hid⟩ := List.mem_map.mp (h.entities (List.mem_map_of_mem hrow.mem))
  refine ⟨r, ⟨hr, ?_⟩, hid⟩
  rw [hid, voided_congr h.events]
  exact hrow.live

theorem Covers.alias_row (h : Covers s t) {row : Alias} (hrow : ReadableAlias env s row) :
    ∃ r, ReadableAlias env t r ∧ r.aliasId = row.aliasId := by
  obtain ⟨r, hr, htext⟩ := List.mem_map.mp (h.aliases (List.mem_map_of_mem hrow.mem))
  exact ⟨r, hrow.of_mem hr htext h.events⟩

theorem Covers.note (h : Covers s t) {row : Note} (hrow : ReadableNote env s row) :
    ∃ r, ReadableNote env t r ∧ r.noteId = row.noteId := by
  obtain ⟨r, hr, htext⟩ := List.mem_map.mp (h.notes (List.mem_map_of_mem hrow.mem))
  exact ⟨r, hrow.of_mem hr htext h.events⟩

theorem Covers.fixable (h : Covers s t) {ch : FieldChange} (hch : Fixable env s ch) :
    Fixable env t ch := by
  cases ch with
  | entity ch =>
    obtain ⟨row, hrow, hid⟩ := hch
    obtain ⟨r, hr, hrid⟩ := h.entity hrow
    exact ⟨r, hr, hrid.trans hid⟩
  | aliasRow ch =>
    obtain ⟨row, hrow, hid⟩ := hch
    obtain ⟨r, hr, hrid⟩ := h.alias_row hrow
    exact ⟨r, hr, hrid.trans hid⟩
  | note ch =>
    obtain ⟨row, hrow, hid⟩ := hch
    obtain ⟨r, hr, hrid⟩ := h.note hrow
    exact ⟨r, hr, hrid.trans hid⟩
  | key ch => exact hch

theorem Covers.refl (s : Store) : Covers s s := ⟨List.Subset.refl _, List.Subset.refl _, List.Subset.refl _, rfl⟩

theorem map_set_write {ρ κ φ : Type} [DecidableEq κ] (c : Column ρ κ φ) (k : κ) (v w : φ) (rows : List ρ) :
    (c.write k v rows).map (c.set w) = rows.map (c.set w) := by
  rw [Column.write, List.map_map]
  apply List.map_congr_left
  intro r _
  by_cases h : c.key r = k
  · rw [Function.comp_apply, if_pos h, c.set_set]
  · rw [Function.comp_apply, if_neg h]

theorem covers_writeEntity (d : Draft) (row : Entity) (v : Status × Option EntityId) :
    Covers d.store (d.writeEntity row v).store := by
  have hkeys := Column.map_key_write entityColumn row.entityId v d.store.entities
  exact ⟨hkeys.symm ▸ List.Subset.refl _, List.Subset.refl _, List.Subset.refl _, rfl⟩

theorem covers_writeAlias (d : Draft) (row : Alias) (v : Option Rat) : Covers d.store (d.writeAlias row v).store := by
  have htext := map_set_write aliasColumn row.aliasId v none d.store.aliases
  exact ⟨List.Subset.refl _, htext.symm ▸ List.Subset.refl _, List.Subset.refl _, rfl⟩

theorem covers_writeNote (d : Draft) (row : Note) (v : Option NoteId) : Covers d.store (d.writeNote row v).store := by
  have htext := map_set_write noteColumn row.noteId v none d.store.notes
  exact ⟨List.Subset.refl _, List.Subset.refl _, htext.symm ▸ List.Subset.refl _, rfl⟩

theorem Act.covers {w : Writes} (h : Act env w d d') : Covers d.store d'.store := by
  have hrefl := Covers.refl d.store
  cases h with
  | log p hcreated hchanges htouches htouched hoverride => exact hrefl
  | entity row hfresh hfield =>
    refine ⟨?_, hrefl.aliases, hrefl.notes, rfl⟩
    exact fun id hid => mem_map_append hid row
  | aliasRow row hid hfield hindex hvisible =>
    refine ⟨hrefl.entities, ?_, hrefl.notes, rfl⟩
    exact fun r hr => mem_map_append hr row
  | note row hfresh hfield =>
    refine ⟨hrefl.entities, hrefl.aliases, ?_, rfl⟩
    exact fun r hr => mem_map_append hr row
  | writeEntity row v hrow hw => exact covers_writeEntity d row v
  | writeAlias row v hrow hindex hw => exact covers_writeAlias d row v
  | writeNote row v hrow => exact covers_writeNote d row v
  | keys keys nextKey ticks p hcreated hchanges htouches htouched hw =>
    exact ⟨hrefl.entities, hrefl.aliases, hrefl.notes, rfl⟩

/-! ## Acts leave what their undo needs -/

/-- An act that leaves the aliases. -/
theorem Ready.other {t' : Store} {p' : Payload} (h : Ready env s t p) (hcovers : Covers t t')
    (haliases : t'.aliases = t.aliases) (hlog : aliasLog p'.changes = aliasLog p.changes)
    (hchanges : ∀ ch ∈ p'.changes, ch ∈ p.changes ∨ Fixable env t ch) (hmade : p'.created.aliases = p.created.aliases)
    (hkeys : p'.created.keys = p.created.keys) (hoverride : p'.override = p.override) : Ready env s t' p' where
  changes := fun ch hch => hcovers.fixable ((hchanges ch hch).elim (h.changes ch) (fun hf => hf))
  created := by
    rw [hmade]
    intro id hid
    obtain ⟨hle, row, hrow, hrid⟩ := h.created id hid
    obtain ⟨r, hr, he⟩ := hcovers.alias_row hrow
    exact ⟨hle, r, hr, he.trans hrid⟩
  retired := by
    rw [hlog, haliases]
    exact h.retired
  kept := by
    rw [hmade, haliases]
    exact h.kept
  noKeys := hkeys.trans h.noKeys
  noOverride := hoverride.trans h.noOverride

structure Draft.Recorded (env : Env) (s : Store) (d : Draft) : Prop where
  ready : Ready env s d.store d.payload
  next : s.nextAlias ≤ d.store.nextAlias
  keys : d.store.keys = s.keys
  events : d.store.events = s.events

theorem mem_snoc {α : Type} {l : List α} {x y : α} (h : y ∈ l ++ [x]) : y ∈ l ∨ y = x := by
  simpa using h

theorem mem_aliasLog {changes : List FieldChange} (h : FieldChange.aliasRow ch ∈ changes) :
    ch ∈ aliasLog changes :=
  List.mem_filterMap.mpr ⟨_, h, rfl⟩

theorem of_mem_aliasLog {changes : List FieldChange} (h : ch ∈ aliasLog changes) :
    FieldChange.aliasRow ch ∈ changes := by
  obtain ⟨x, hx, hto⟩ := List.mem_filterMap.mp h
  cases x with
  | aliasRow x =>
    cases hto
    exact hx
  | entity x => cases hto
  | note x => cases hto
  | key x => cases hto

/-- A new alias. -/
theorem Ready.withAlias (h : Ready env s d.store d.payload) (hsound : d.Sound)
    (hnext : s.nextAlias ≤ d.store.nextAlias) {row : Alias} (hid : row.aliasId = d.store.nextAlias)
    (hread : ReadableAlias env (d.withAlias row).store row) (hcovers : Covers d.store (d.withAlias row).store) :
    Ready env s (d.withAlias row).store (d.withAlias row).payload where
  changes := fun ch hch => hcovers.fixable (h.changes ch hch)
  created := by
    intro id hin
    cases mem_snoc hin with
    | inl hin =>
      obtain ⟨hle, r, hr, hrid⟩ := h.created id hin
      obtain ⟨r', hr', he⟩ := hcovers.alias_row hr
      exact ⟨hle, r', hr', he.trans hrid⟩
    | inr he => exact ⟨by omega, row, hread, he.symm⟩
  retired := by
    intro ch hch
    obtain ⟨hbefore, hrows⟩ := h.retired ch hch
    refine ⟨hbefore, fun r hr hrid => ?_⟩
    cases mem_snoc hr with
    | inl hr => exact hrows r hr hrid
    | inr he =>
      -- the id of a written row is taken
      obtain ⟨r0, hr0, hr0id⟩ := h.changes _ (of_mem_aliasLog hch)
      have hbelow := hsound.tables.aliasBelow r0 hr0.mem
      rw [he] at hrid
      omega
  kept := by
    intro r hr hnone
    cases mem_snoc hr with
    | inl hr => exact (h.kept r hr hnone).imp_left (fun hin => List.mem_append_left _ hin)
    | inr he => exact Or.inl (he ▸ List.mem_append_right _ (List.mem_singleton.mpr rfl))
  noKeys := h.noKeys
  noOverride := h.noOverride

/-- A retirement. -/
theorem Ready.writeAlias (h : Ready env s d.store d.payload) (hsound : d.Sound)
    {row : Alias} {v : Option Rat} (hrow : ReadableAlias env d.store row)
    (hw : (calmWrites s).aliasRow row.aliasId row.retiredAt v)
    (hcovers : Covers d.store (d.writeAlias row v).store) :
    Ready env s (d.writeAlias row v).store (d.writeAlias row v).payload where
  changes := by
    intro ch hch
    apply hcovers.fixable
    cases mem_snoc hch with
    | inl hch => exact h.changes ch hch
    | inr he => exact he ▸ ⟨row, hrow, rfl⟩
  created := by
    intro id hin
    obtain ⟨hle, r, hr, hrid⟩ := h.created id hin
    obtain ⟨r', hr', he⟩ := hcovers.alias_row hr
    exact ⟨hle, r', hr', he.trans hrid⟩
  retired := by
    intro ch hch
    have hlog : aliasLog (d.writeAlias row v).payload.changes = aliasLog d.payload.changes ++
        [⟨row.aliasId, row.retiredAt, v⟩] :=
      aliasLog_snoc _ _
    rw [hlog] at hch
    obtain ⟨hold, hnone, hv⟩ := hw
    cases mem_snoc hch with
    | inl hch =>
      obtain ⟨hbefore, hrows⟩ := h.retired ch hch
      refine ⟨hbefore, fun r hr hrid => ?_⟩
      cases (Column.mem_write aliasColumn).mp hr with
      | inl hr => exact hrows r hr.1 hrid
      | inr hr =>
        obtain ⟨r0, hr0, -, rfl⟩ := hr
        exact ⟨hv, (hrows r0 hr0 hrid).2⟩
    | inr he =>
      subst he
      refine ⟨hnone, fun r hr hrid => ?_⟩
      cases (Column.mem_write aliasColumn).mp hr with
      | inl hr => exact absurd hrid hr.2
      | inr hr =>
        obtain ⟨r0, hr0, hr0id, rfl⟩ := hr
        refine ⟨hv, ?_⟩
        rw [aliasColumn.set_set, hsound.tables.alias_unique hr0 hrow.mem hr0id, ← hnone, show row.retiredAt =
          aliasColumn.get row from rfl, aliasColumn.set_get]
        cases h.kept row hrow.mem hnone with
        | inl hin =>
          have := (h.created _ hin).1
          omega
        | inr hin => exact hin
  kept := by
    intro r hr hnone
    cases (Column.mem_write aliasColumn).mp hr with
    | inl hr => exact h.kept r hr.1 hnone
    | inr hr =>
      obtain ⟨r0, -, -, rfl⟩ := hr
      exact absurd hnone hw.2.2
  noKeys := h.noKeys
  noOverride := h.noOverride

/-- An act keeps what the draft has recorded of its store. -/
theorem Act.recorded (hvoid : ∀ id ∈ voided Created.aliases s, id < s.nextAlias)
    (hact : Act env (calmWrites s) d d') (hsound : d.Sound) (h : d.Recorded env s) : d'.Recorded env s := by
  have hcovers := hact.covers
  have hready := h.ready
  cases hact with
  | log p hcreated hchanges htouches htouched hoverride =>
    refine ⟨hready.other hcovers rfl ?_ ?_ ?_ ?_ ?_, h.next, h.keys, h.events⟩
    · rw [hchanges]
    · exact fun ch hch => Or.inl (hchanges ▸ hch)
    · rw [hcreated]
    · rw [hcreated]
    · exact hoverride.elim (fun ho => ho) (fun hf => hf.elim)
  | entity row hfresh hfield =>
    exact ⟨hready.other hcovers rfl rfl (fun ch hch => Or.inl hch) rfl rfl rfl, h.next, h.keys, h.events⟩
  | aliasRow row hid hfield hindex hvisible =>
    have hread : ReadableAlias env (d.withAlias row).store row := by
      refine ⟨List.mem_append_right _ (List.mem_singleton.mpr rfl), hvisible, fun hin => ?_⟩
      rw [voided_congr (hcovers.events.trans h.events)] at hin
      have := hvoid _ hin
      have := h.next
      omega
    exact ⟨hready.withAlias hsound h.next hid hread hcovers, Nat.le_succ_of_le h.next, h.keys, h.events⟩
  | note row hfresh hfield =>
    exact ⟨hready.other hcovers rfl rfl (fun ch hch => Or.inl hch) rfl rfl rfl, h.next, h.keys, h.events⟩
  | writeEntity row v hrow hw =>
    refine ⟨hready.other hcovers rfl (aliasLog_snoc _ _) (fun ch hch => ?_) rfl rfl rfl, h.next, h.keys, h.events⟩
    cases mem_snoc hch with
    | inl hch => exact Or.inl hch
    | inr he => exact Or.inr (he ▸ ⟨row, hrow, rfl⟩)
  | writeAlias row v hrow hindex hw => exact ⟨hready.writeAlias hsound hrow hw hcovers, h.next, h.keys, h.events⟩
  | writeNote row v hrow =>
    refine ⟨hready.other hcovers rfl (aliasLog_snoc _ _) (fun ch hch => ?_) rfl rfl rfl, h.next, h.keys, h.events⟩
    cases mem_snoc hch with
    | inl hch => exact Or.inl hch
    | inr he => exact Or.inr (he ▸ ⟨row, hrow, rfl⟩)
  | keys keys nextKey ticks p hcreated hchanges htouches htouched hw => exact hw.elim

theorem Acts.recorded (hs : Tables s) (hvoid : ∀ id ∈ voided Created.aliases s, id < s.nextAlias)
    (hacts : Acts env (calmWrites s) { store := s } d) : d.Recorded env s := by
  induction hacts with
  | refl =>
    refine ⟨⟨?_, ?_, ?_, fun row hrow _ => Or.inr hrow, rfl, rfl⟩, Nat.le_refl _, rfl, rfl⟩
    · exact fun ch hch => by cases hch
    · exact fun id hid => by cases hid
    · exact fun ch hch => by cases hch
  | tail hbefore hact ih => exact hact.recorded hvoid (Acts.sound hbefore (sound_start hs)) ih

/-! ## The inverse succeeds -/

/-- A draft of the undo on `t`: only projected fields have been written. -/
structure Mirrors (t : Store) (d : Draft) : Prop where
  covers : Covers t d.store
  aliases : d.store.aliases.map (aliasColumn.set none) ⊆ t.aliases.map (aliasColumn.set none)
  keys : d.store.keys = t.keys

theorem Covers.trans {a b c : Store} (h : Covers a b) (h' : Covers b c) : Covers a c :=
  ⟨List.Subset.trans h.entities h'.entities, List.Subset.trans h.aliases h'.aliases,
    List.Subset.trans h.notes h'.notes, h'.events.trans h.events⟩

theorem Mirrors.step {mid : Draft} (h : Mirrors t d) (hcovers : Covers d.store mid.store)
    (haliases : mid.store.aliases.map (aliasColumn.set none) = d.store.aliases.map (aliasColumn.set none))
    (hkeys : mid.store.keys = d.store.keys) (hsame : SameRows mid d') : Mirrors t d' := by
  constructor
  · rw [hsame.store]
    exact h.covers.trans hcovers
  · rw [hsame.store, haliases]
    exact h.aliases
  · rw [hsame.store, hkeys]
    exact h.keys

theorem Mirrors.projectAlias (h : Mirrors t d) {id : Nat} {v : Stamp}
    (hd' : projectAlias c id v d = .ok d') : Mirrors t d' := by
  obtain ⟨row, -, -, hsame⟩ := projectAlias_same hd'
  exact h.step (covers_writeAlias d row _) (map_set_write aliasColumn _ _ _ _) rfl hsame

/-- The draft when the new aliases are retired: what is not retired stands as in
`s`. -/
structure Settled (s t : Store) (d : Draft) : Prop where
  mirrors : Mirrors t d
  kept : ∀ row ∈ d.store.aliases, row.retiredAt = none → row ∈ s.aliases

theorem Mirrors.retired_row (h : Mirrors t d) (hready : Ready env s t p)
    (hch : ch ∈ aliasLog p.changes) {row : Alias} (hrow : row ∈ d.store.aliases)
    (hid : row.aliasId = ch.id) : aliasColumn.set none row ∈ s.aliases := by
  obtain ⟨r, hr, htext⟩ := List.mem_map.mp (h.aliases (List.mem_map_of_mem hrow))
  have hrid : r.aliasId = row.aliasId := (congrArg Alias.aliasId htext :)
  rw [← htext]
  exact ((hready.retired ch hch).2 r hr (hrid.trans hid)).2

/-- The index is free for an alias that was unretired in `s`. -/
theorem Settled.index_free (hs : Tables s) (h : Settled s t d) {row : Alias}
    (hrow : aliasColumn.set none row ∈ s.aliases) : indexConflict d.store row = false := by
  rw [indexConflict, Bool.and_eq_false_iff]
  by_cases hkind : row.aliasKind = .platformId
  · right
    rw [List.any_eq_false]
    intro b hb hconflict
    simp only [Bool.and_eq_true, decide_eq_true_eq] at hconflict
    obtain ⟨⟨hindexed, hne⟩, hnorm⟩ := hconflict
    have hnone : b.retiredAt = none := by
      simp only [Alias.indexed, Bool.and_eq_true, decide_eq_true_eq] at hindexed
      exact hindexed.2
    have hrowIndexed : (aliasColumn.set none row).indexed = true := by
      simp [Alias.indexed, aliasColumn, hkind]
    have hsame := hs.index b (h.kept b hb hnone) _ hrow hindexed hrowIndexed hnorm
    exact hne (by rw [hsame]; rfl)
  · left
    simpa using hkind

theorem mem_inverseOrder {changes : List FieldChange} {ch : FieldChange}
    (h : ch ∈ inverseOrder changes) : ch ∈ changes := by
  rcases List.mem_append.mp h with h | h
  · exact List.mem_reverse.mp (List.mem_filter.mp h).1
  · exact List.mem_reverse.mp (List.mem_filter.mp h).1

/-- A change of the target can be written back. -/
theorem restore_total (hs : Tables s) (hready : Ready c.env s t p)
    (h : Settled s t d) {ch : FieldChange} (hch : ch ∈ p.changes) :
    ∃ d', restore c d ch = .ok d' ∧ Settled s t d' := by
  have hfix := h.mirrors.covers.fixable (hready.changes ch hch)
  cases ch with
  | entity ch =>
    obtain ⟨row, hrow, hid⟩ := hfix
    obtain ⟨d', hd'⟩ := projectEntity_total hrow ch.before
    rw [hid] at hd'
    obtain ⟨r, -, -, hsame⟩ := projectEntity_same hd'
    refine ⟨d', hd', h.mirrors.step (covers_writeEntity d r _) rfl rfl hsame, ?_⟩
    rw [hsame.store]
    exact h.kept
  | aliasRow ch =>
    obtain ⟨row, hrow, hid⟩ := hfix
    have hlog := mem_aliasLog hch
    obtain ⟨d', hd'⟩ := projectAlias_total hrow (.value ch.before) (fun _ r hr hrid =>
      h.index_free hs (h.mirrors.retired_row hready hlog hr (hrid.trans hid)))
    rw [hid] at hd'
    refine ⟨d', hd', h.mirrors.projectAlias hd', ?_⟩
    obtain ⟨r, -, hrid, hsame⟩ := projectAlias_same hd'
    rw [hsame.store]
    intro x hx hnone
    cases (Column.mem_write aliasColumn).mp hx with
    | inl hx => exact h.kept x hx.1 hnone
    | inr hx =>
      obtain ⟨x0, hx0, hx0id, rfl⟩ := hx
      have hvalue : stamp c d (.value ch.before) = none := (hready.retired ch hlog).1
      rw [hvalue]
      exact h.mirrors.retired_row hready hlog hx0 (hx0id.trans hrid)
  | note ch =>
    obtain ⟨row, hrow, hid⟩ := hfix
    obtain ⟨d', hd'⟩ := projectNote_total hrow ch.before
    rw [hid] at hd'
    obtain ⟨r, -, -, hsame⟩ := projectNote_same hd'
    refine ⟨d', hd', h.mirrors.step (covers_writeNote d r _) rfl rfl hsame, ?_⟩
    rw [hsame.store]
    exact h.kept
  | key ch => exact hfix.elim

theorem inverse_total (hs : Tables s) (hready : Ready c.env s t p) :
    ∃ d, inverse c p.created p.changes { store := t } = .ok d ∧ Settled s t d := by
  -- the aliases the target made
  obtain ⟨retired, hretired, hmirrors⟩ :
      ∃ d, p.created.aliases.foldlM (fun d id => projectAlias c id .now d) { store := t } =
      .ok d ∧ Mirrors t d := by
    refine foldlM_total (P := Mirrors t) (fun id hid d hd => ?_) ⟨.refl t, List.Subset.refl _, rfl⟩
    obtain ⟨-, row, hrow, hrid⟩ := hready.created id hid
    obtain ⟨r, hr, he⟩ := hd.covers.alias_row hrow
    obtain ⟨d', hd'⟩ := projectAlias_total hr .now (fun hnone => by cases hnone)
    rw [he, hrid] at hd'
    exact ⟨d', hd', hd.projectAlias hd'⟩
  have hsettled : Settled s t retired := by
    refine ⟨hmirrors, fun row hrow hnone => ?_⟩
    obtain ⟨-, -, ws, hids, hws, haliases⟩ := retire_tables _ hretired
    rw [haliases] at hrow
    rcases Column.mem_writeAll aliasColumn hrow with ⟨hrow, hnot⟩ | ⟨r0, -, w, hw, -, rfl⟩
    · rw [hids] at hnot
      exact (hready.kept row hrow hnone).resolve_left hnot
    · exact absurd hnone (hws w hw)
  obtain ⟨d, hd, hdsettled⟩ := foldlM_total (P := Settled s t) (l := inverseOrder p.changes)
    (fun ch hch d hd => restore_total hs hready hd (mem_inverseOrder hch)) hsettled
  refine ⟨d, ?_, hdsettled⟩
  rw [inverse, hretired, hready.noKeys]
  exact hd

/-! ## The undo is not refused -/

theorem safeChanges_all {keys : List Nat} (changes : List FieldChange) :
    (∀ ch ∈ changes, ∀ x, ch ≠ .key x) → safeChanges env s keys changes = .ok changes := by
  induction changes with
  | nil => exact fun _ => rfl
  | cons ch changes ih =>
    intro h
    have hrest := ih (fun x hx => h x (List.mem_cons_of_mem _ hx))
    rw [safeChanges, hrest]
    · rfl
    · exact h ch List.mem_cons_self

/-- A retired platform id of `s` has no other holder. -/
theorem Ready.otherHolder (hs : Tables s) (hready : Ready env s t p)
    (hch : ch ∈ aliasLog p.changes) {row : Alias} (hrow : row ∈ t.aliases)
    (hid : row.aliasId = ch.id) : otherHolder env t p.created.aliases row = none := by
  unfold EntityStore.otherHolder
  split
  · rename_i hkind
    rw [List.find?_eq_none]
    intro holder hholder hfound
    simp only [aliasesByNorm, List.mem_filter, Bool.and_eq_true, decide_eq_true_eq] at hholder hfound
    obtain ⟨hmem, ⟨hnorm, hnone⟩, -⟩ := hholder
    have hold := (hready.kept holder hmem hnone).resolve_left hfound.2
    obtain ⟨-, hback⟩ := (hready.retired ch hch).2 row hrow hid
    have hsame : holder = aliasColumn.set none row := by
      apply hs.index holder hold _ hback
      · simp [Alias.indexed, hfound.1, hnone]
      · simp [Alias.indexed, aliasColumn, hkind]
      · exact hnorm
    -- the holder would be the retired row
    have hholderId : holder.aliasId = ch.id := by
      rw [hsame]
      exact hid
    exact ((hready.retired ch hch).2 holder hmem hholderId).1 hnone
  · rfl

theorem checkHolders_ok (hs : Tables s) (hready : Ready env s t p)
    (changes : List FieldChange) : changes ⊆ p.changes → checkHolders env t p.created.aliases changes = .ok () := by
  induction changes with
  | nil => exact fun _ => rfl
  | cons ch changes ih =>
    intro hsub
    have hmem : ch ∈ p.changes := hsub List.mem_cons_self
    have hrest := ih (fun x hx => hsub (List.mem_cons_of_mem _ hx))
    cases ch with
    | entity x => exact hrest
    | note x => exact hrest
    | key x => exact hrest
    | aliasRow x =>
      have hlog := mem_aliasLog hmem
      obtain ⟨row, hrow, hid⟩ := hready.changes _ hmem
      obtain ⟨r, hr⟩ := getLiveAlias_total hrow
      obtain ⟨hread, hrid⟩ := getLiveAlias_ok hr
      rw [hid] at hr hrid
      rw [checkHolders, if_pos (hready.retired x hlog).1, bind_ok]
      refine ⟨r, hr, ?_⟩
      rw [hready.otherHolder hs hlog hread.mem hrid]
      exact hrest

theorem blockers_nil {id : Nat} {touches : Touches}
    (h : ∀ x ∈ t.events, id < x.eventId → x.op = .undo ∨ x.eventId ∈ undone t) : blockers t id touches = [] := by
  rw [blockers, List.map_eq_nil_iff, List.filter_eq_nil_iff]
  intro x hx hblock
  simp only [Bool.and_eq_true, decide_eq_true_eq] at hblock
  obtain ⟨⟨⟨hlt, hop⟩, hstanding⟩, -⟩ := hblock
  cases h x (List.mem_reverse.mp hx) hlt with
  | inl hundo => exact hop hundo
  | inr hundone => exact hstanding hundone

/-- An event whose successors are all undone is undone when its rows can be read. -/
theorem undo_total {e : Event} (hs : Tables s) (ht : EventLog t)
    (hready : Ready c.env s t p) (hmem : e ∈ t.events) (hp : e.payload = some p)
    (hop : e.op ≠ .undo ∧ hasInverse e.op = true) (hstanding : e.eventId ∉ undone t)
    (hlater : ∀ x ∈ t.events, e.eventId < x.eventId → x.op = .undo ∨ x.eventId ∈ undone t) :
    ∃ d, undo c e.eventId t = .ok (appendEvent .undo d.payload (some e.eventId) d.store) ∧
      undoBody c none p.created p.changes t = .ok d ∧ Settled s t d := by
  obtain ⟨d, hd, hsettled⟩ := inverse_total hs hready
  have hbody : undoBody c none p.created p.changes t = .ok d := by
    rw [undoBody, hd]
    rfl
  have hfind : t.events.find? (fun x => x.eventId = e.eventId) = some e := by
    cases hf : t.events.find? (fun x => x.eventId = e.eventId) with
    | none => exact absurd (List.find?_eq_none.mp hf e hmem) (by simp)
    | some x =>
      have hid : x.eventId = e.eventId := by simpa using List.find?_some hf
      rw [ht.unique (List.mem_of_find?_eq_some hf) hmem hid]
  have hsafe : safeChanges c.env t p.created.keys p.changes = .ok p.changes := by
    apply safeChanges_all
    rintro ch hch x rfl
    exact hready.changes _ hch
  have hplan : undoPlan c e.eventId t = .ok (e, p.created, p.changes) := by
    have hblockers : blockers t e.eventId p.touches = [] := blockers_nil hlater
    have hkeys : inverseKeys t p = .ok p.created.keys := by
      rw [inverseKeys, hready.noOverride]
    have hholders := checkHolders_ok hs hready p.changes (List.Subset.refl _)
    simp [undoPlan, hfind, hop.1, hop.2, hstanding, hp, hblockers, hkeys, hsafe, hholders, bind, Except.bind]
  refine ⟨d, ?_, hbody, hsettled⟩
  have hderivation : e.payload.bind (derivation t) = none := by
    rw [hp, Option.bind_some, derivation, hready.noOverride]
  have hclash : refuseClash e.op (.ok d) = .ok d := by
    unfold refuseClash
    split
    · rfl
    · rfl
  rw [undo, hplan]
  simp only [bind, Except.bind, hderivation, hbody, hclash]

end EntityStore
