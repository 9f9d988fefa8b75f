import LcmX.EntityEffects

/-!
# The tables stay well formed

Row ids are distinct, alias ids were counted up, and at most one unretired alias
holds a platform id. With that every operation decomposes into acts.
-/
namespace EntityStore

open ChangeLog Fallible Draft

structure Tables (s : Store) : Prop where
  entityIds : (s.entities.map Entity.entityId).Nodup
  aliasIds : (s.aliases.map Alias.aliasId).Nodup
  aliasBelow : ∀ row ∈ s.aliases, row.aliasId < s.nextAlias
  noteIds : (s.notes.map Note.noteId).Nodup
  index : ∀ a ∈ s.aliases, ∀ b ∈ s.aliases, a.indexed = true → b.indexed = true → a.aliasNorm = b.aliasNorm → a = b

structure Draft.Sound (d : Draft) : Prop where
  tables : Tables d.store
  touched : ∀ id, AliasTouch.id id ∈ d.payload.touches.aliases → id ∈ d.store.aliases.map Alias.aliasId

theorem nodup_append_fresh {ρ κ : Type} {key : ρ → κ} {rows : List ρ} {r : ρ} (h : (rows.map key).Nodup)
    (hr : key r ∉ rows.map key) : ((rows ++ [r]).map key).Nodup := by
  rw [List.map_append]
  exact h.append (List.nodup_singleton _) (by simpa using hr)

variable {s : Store} {env : Env} {w : Writes} {d d' : Draft}

theorem Tables.alias_fresh (h : Tables s) : s.nextAlias ∉ s.aliases.map Alias.aliasId := by
  intro hin
  obtain ⟨row, hrow, hid⟩ := List.mem_map.mp hin
  have := h.aliasBelow row hrow
  omega

theorem Tables.alias_unique (h : Tables s) {a b : Alias} (ha : a ∈ s.aliases) (hb : b ∈ s.aliases)
    (hid : a.aliasId = b.aliasId) : a = b :=
  List.inj_on_of_nodup_map h.aliasIds ha hb hid

theorem Tables.entity_unique (h : Tables s) {a b : Entity} (ha : a ∈ s.entities) (hb : b ∈ s.entities)
    (hid : a.entityId = b.entityId) : a = b :=
  List.inj_on_of_nodup_map h.entityIds ha hb hid

/-! ## Acts keep the tables -/

theorem indexConflict_false {a b : Alias} (h : indexConflict s a = false) (ha : a.aliasKind = .platformId)
    (hb : b ∈ s.aliases) (hi : b.indexed = true) (hne : b.aliasId ≠ a.aliasId) : b.aliasNorm ≠ a.aliasNorm := by
  intro hnorm
  rw [indexConflict, ha, Bool.and_eq_false_iff] at h
  cases h with
  | inl h => simp at h
  | inr h =>
    rw [List.any_eq_false] at h
    exact h b hb (by simp [hi, hne, hnorm])

/-- Adding an alias keeps the tables' constraints. -/
theorem tables_addAlias (h : Tables s) {row : Alias} (hid : row.aliasId = s.nextAlias)
    (hindex : indexConflict s row = false) :
    Tables { s with aliases := s.aliases ++ [row], nextAlias := s.nextAlias + 1 } where
  entityIds := h.entityIds
  aliasIds := nodup_append_fresh h.aliasIds (hid ▸ h.alias_fresh)
  aliasBelow := by
    intro r hr
    cases List.mem_append.mp hr with
    | inl hr => exact Nat.lt_succ_of_lt (h.aliasBelow r hr)
    | inr hr =>
      rw [List.mem_singleton.mp hr, hid]
      exact Nat.lt_succ_self _
  noteIds := h.noteIds
  index := by
    have hold : ∀ b ∈ s.aliases, b.indexed = true → row.indexed = true → b.aliasNorm ≠ row.aliasNorm := by
      intro b hb hbi hri
      have hkind : row.aliasKind = .platformId := by
        simp only [Alias.indexed, Bool.and_eq_true, decide_eq_true_eq] at hri
        exact hri.1
      have hne : b.aliasId ≠ row.aliasId := by
        have := h.aliasBelow b hb
        omega
      exact indexConflict_false hindex hkind hb hbi hne
    intro a ha b hb hai hbi hnorm
    cases List.mem_append.mp ha with
    | inl ha =>
      cases List.mem_append.mp hb with
      | inl hb => exact h.index a ha b hb hai hbi hnorm
      | inr hb =>
        rw [List.mem_singleton.mp hb] at hbi hnorm
        exact absurd hnorm (hold a ha hai hbi)
    | inr ha =>
      rw [List.mem_singleton.mp ha] at hai hnorm ⊢
      cases List.mem_append.mp hb with
      | inl hb => exact absurd hnorm.symm (hold b hb hbi hai)
      | inr hb => exact (List.mem_singleton.mp hb).symm

/-- Writing an alias row keeps the tables' constraints. -/
theorem tables_writeAlias (h : Tables s) {row : Alias} (hrow : row ∈ s.aliases) {v : Option Rat}
    (hindex : v = none → indexConflict s row = false) :
    Tables { s with aliases := aliasColumn.write row.aliasId v s.aliases } where
  entityIds := h.entityIds
  aliasIds := by
    rw [show Alias.aliasId = aliasColumn.key from rfl, Column.map_key_write]
    exact h.aliasIds
  aliasBelow := by
    intro r hr
    cases (Column.mem_write aliasColumn).mp hr with
    | inl hr => exact h.aliasBelow r hr.1
    | inr hr =>
      obtain ⟨r0, hr0, -, rfl⟩ := hr
      exact h.aliasBelow r0 hr0
  noteIds := h.noteIds
  index := by
    -- a row of the new table is an old one, or the written one
    have hcase : ∀ r ∈ aliasColumn.write row.aliasId v s.aliases,
        (r ∈ s.aliases ∧ r.aliasId ≠ row.aliasId) ∨ r = { row with retiredAt := v } := by
      intro r hr
      cases (Column.mem_write aliasColumn).mp hr with
      | inl hr => exact Or.inl hr
      | inr hr =>
        obtain ⟨r0, hr0, hid, rfl⟩ := hr
        rw [h.alias_unique hr0 hrow hid]
        exact Or.inr rfl
    have hother : ∀ b ∈ s.aliases, b.indexed = true → b.aliasId ≠ row.aliasId →
        ({ row with retiredAt := v } : Alias).indexed = true → b.aliasNorm ≠ row.aliasNorm := by
      intro b hb hbi hne hri
      simp only [Alias.indexed, Bool.and_eq_true, decide_eq_true_eq] at hri
      exact indexConflict_false (hindex hri.2) hri.1 hb hbi hne
    intro a ha b hb hai hbi hnorm
    rcases hcase a ha with ⟨ha, hane⟩ | rfl
    · rcases hcase b hb with ⟨hb, hbne⟩ | rfl
      · exact h.index a ha b hb hai hbi hnorm
      · exact absurd hnorm (hother a ha hai hane hbi)
    · rcases hcase b hb with ⟨hb, hbne⟩ | rfl
      · exact absurd hnorm.symm (hother b hb hbi hbne hai)
      · rfl

theorem tables_addEntity (h : Tables s) {row : Entity} (hrow : row.entityId ∉ s.entities.map Entity.entityId) :
    Tables { s with entities := s.entities ++ [row] } :=
  ⟨nodup_append_fresh h.entityIds hrow, h.aliasIds, h.aliasBelow, h.noteIds, h.index⟩

theorem tables_addNote (h : Tables s) {row : Note} (hrow : row.noteId ∉ s.notes.map Note.noteId) :
    Tables { s with notes := s.notes ++ [row] } :=
  ⟨h.entityIds, h.aliasIds, h.aliasBelow, nodup_append_fresh h.noteIds hrow, h.index⟩

theorem tables_writeEntity (h : Tables s) (id : EntityId) (v : Status × Option EntityId) :
    Tables (setEntityStatus id v s) where
  entityIds := by
    rw [setEntityStatus, show Entity.entityId = entityColumn.key from rfl, Column.map_key_write]
    exact h.entityIds
  aliasIds := h.aliasIds
  aliasBelow := h.aliasBelow
  noteIds := h.noteIds
  index := h.index

theorem tables_writeNote (h : Tables s) (id : NoteId) (v : Option NoteId) :
    Tables (setNoteSuperseded id v s) where
  entityIds := h.entityIds
  aliasIds := h.aliasIds
  aliasBelow := h.aliasBelow
  noteIds := by
    rw [setNoteSuperseded, show Note.noteId = noteColumn.key from rfl, Column.map_key_write]
    exact h.noteIds
  index := h.index

theorem mem_map_append {ρ κ : Type} {key : ρ → κ} {rows : List ρ} {k : κ} (h : k ∈ rows.map key) (r : ρ) :
    k ∈ (rows ++ [r]).map key := by
  rw [List.map_append]
  exact List.mem_append_left _ h

theorem Act.sound (hact : Act env w d d') (h : d.Sound) : d'.Sound := by
  cases hact with
  | log p hcreated hchanges htouches htouched hoverride =>
    exact ⟨h.tables, fun id hid => (htouched id hid).elim (h.touched id) (fun hin => hin)⟩
  | entity row hfresh hfield => exact ⟨tables_addEntity h.tables hfresh, h.touched⟩
  | aliasRow row hid hfield hindex hvisible =>
    exact ⟨tables_addAlias h.tables hid hindex, fun id hin => mem_map_append (h.touched id hin) row⟩
  | note row hfresh hfield => exact ⟨tables_addNote h.tables hfresh, h.touched⟩
  | writeEntity row v hrow hw => exact ⟨tables_writeEntity h.tables _ _, h.touched⟩
  | writeAlias row v hrow hindex hw =>
    refine ⟨tables_writeAlias h.tables hrow.mem hindex, fun id hin => ?_⟩
    have hkeys := Column.map_key_write aliasColumn row.aliasId v d.store.aliases
    have hmem : id ∈ d.store.aliases.map aliasColumn.key := h.touched id hin
    rw [← hkeys] at hmem
    exact hmem
  | writeNote row v hrow => exact ⟨tables_writeNote h.tables _ _, h.touched⟩
  | keys keys nextKey ticks p hcreated hchanges htouches htouched hw =>
    exact ⟨⟨h.tables.entityIds, h.tables.aliasIds, h.tables.aliasBelow, h.tables.noteIds, h.tables.index⟩,
      fun id hid => h.touched id (htouched ▸ hid)⟩

theorem Acts.sound (hacts : Acts env w d d') (h : d.Sound) : d'.Sound := by
  induction hacts with
  | refl => exact h
  | tail _ hact ih => exact hact.sound ih

theorem sound_start (h : Tables s) : Draft.Sound { store := s } := ⟨h, fun _ hid => by cases hid⟩

theorem Act.nextAlias_le (h : Act env w d d') :
    d.store.nextAlias ≤ d'.store.nextAlias := by
  cases h with
  | aliasRow row hid hfield hindex hvisible => exact Nat.le_succ _
  | _ => exact Nat.le_refl _

theorem Acts.nextAlias_le (h : Acts env w d d') :
    d.store.nextAlias ≤ d'.store.nextAlias := by
  induction h with
  | refl => exact Nat.le_refl _
  | tail _ hact ih => exact Nat.le_trans ih hact.nextAlias_le

end EntityStore
