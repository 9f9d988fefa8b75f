import LcmX.EntityHistory

/-!
# What an undo writes

The inverse writes the recorded values back, last change first. Keys apart, an
undo does this and retires the aliases its target made.
-/
namespace EntityStore

open ChangeLog Fallible Draft

/-! ## One projected write -/

variable {d d' : Draft} {c : Context}

theorem projectEntity_same {id : EntityId} {v : Status × Option EntityId}
    (h : projectEntity id v d = .ok d') :
    ∃ row, LiveEntity d.store row ∧ row.entityId = id ∧ SameRows (d.writeEntity row v) d' := by
  rw [projectEntity, bind_ok] at h
  obtain ⟨row, hget, h⟩ := h
  obtain ⟨hrow, rfl⟩ := getLiveEntity_ok hget
  cases h
  exact ⟨row, hrow, rfl, touchEntity_same _ _⟩

theorem projectNote_same {id : NoteId} {v : Option NoteId}
    (h : projectNote c id v d = .ok d') :
    ∃ row, ReadableNote c.env d.store row ∧ row.noteId = id ∧ SameRows (d.writeNote row v) d' := by
  rw [projectNote, bind_ok] at h
  obtain ⟨row, hget, h⟩ := h
  obtain ⟨hrow, rfl⟩ := getLiveNote_ok hget
  cases h
  exact ⟨row, hrow, rfl, (touchNote_same _ _).trans (touchEntity_same _ _)⟩

/-- The two drafts differ in their keys and in what they record. -/
structure SameTables (d d' : Draft) : Prop where
  entities : d'.store.entities = d.store.entities
  aliases : d'.store.aliases = d.store.aliases
  notes : d'.store.notes = d.store.notes

theorem SameTables.refl (d : Draft) : SameTables d d := ⟨rfl, rfl, rfl⟩

theorem SameTables.trans {a b c : Draft} (h : SameTables a b) (h' : SameTables b c) : SameTables a c :=
  ⟨h'.entities.trans h.entities, h'.aliases.trans h.aliases, h'.notes.trans h.notes⟩

theorem projectKey_same {id : Nat} {v : Stamp} (h : projectKey c id v d = .ok d') :
    SameTables d d' := by
  rw [projectKey, bind_ok] at h
  obtain ⟨row, -, h⟩ := h
  rw [bind_ok] at h
  obtain ⟨s, hs, hd'⟩ := h
  unfold setKeyRetired at hs
  split at hs
  · cases hs
  · cases hs
    cases hd'
    exact ⟨rfl, rfl, rfl⟩

theorem newKey_same {row : KeyRow} (h : newKey row d = .ok d') : SameTables d d' := by
  rw [newKey, bind_ok] at h
  obtain ⟨s, hs, hd'⟩ := h
  unfold insertKey at hs
  split at hs
  · cases hs
  · cases hs
    cases hd'
    exact ⟨rfl, rfl, rfl⟩

theorem refresh_same {latest : Option KeyRow} (h : refresh c latest d = .ok d') :
    SameTables d d' := by
  unfold refresh at h
  split at h
  · cases h
    exact .refl d
  · refine foldlM_invariant (fun _ _ a b ha hb => ?_) (SameTables.refl d) h
    simp only [refreshRow, bind_ok] at hb
    obtain ⟨mid, hmid, hb⟩ := hb
    exact ha.trans ((projectKey_same hmid).trans (newKey_same hb))

/-! ## The order of the inverse -/

/-- Sorting the aliases to the front does not mix the changes of one table. -/
theorem filterMap_partition {β : Type} {pick : FieldChange → Option β} {b : Bool}
    (h : ∀ ch : FieldChange, ch.isAlias = b → pick ch = none) (l : List FieldChange) :
    (l.filter FieldChange.isAlias).filterMap pick ++ (l.filter (fun ch => !ch.isAlias)).filterMap
      pick = l.filterMap pick := by
  have hnone : ∀ p : FieldChange → Bool, (∀ ch, p ch = true → ch.isAlias = b) → (l.filter p).filterMap pick = [] := by
    intro p hp
    rw [List.filterMap_eq_nil_iff]
    intro ch hch
    exact h ch (hp ch (List.mem_filter.mp hch).2)
  have hall : ∀ p : FieldChange → Bool, (∀ ch, p ch = false → ch.isAlias = b) →
      (l.filter p).filterMap pick = l.filterMap pick := by
    intro p hp
    rw [List.filterMap_filter]
    apply List.filterMap_congr
    intro ch _
    cases hpc : p ch with
    | true => rfl
    | false => exact (h ch (hp ch hpc)).symm
  cases b with
  | true =>
    rw [hnone _ (fun ch hc => hc), hall _ (fun ch hc => by simpa using hc), List.nil_append]
  | false =>
    rw [hall _ (fun ch hc => hc), hnone _ (fun ch hc => by simpa using hc), List.append_nil]

theorem entityLog_inverseOrder (changes : List FieldChange) :
    entityLog (inverseOrder changes) = (entityLog changes).reverse := by
  have h : ∀ ch : FieldChange, ch.isAlias = true → ch.toEntity = none := by
    intro ch hc
    cases ch <;> first | rfl | cases hc
  rw [inverseOrder, entityLog, entityLog, List.filterMap_append, filterMap_partition h, List.filterMap_reverse]

theorem noteLog_inverseOrder (changes : List FieldChange) :
    noteLog (inverseOrder changes) = (noteLog changes).reverse := by
  have h : ∀ ch : FieldChange, ch.isAlias = true → ch.toNote = none := by
    intro ch hc
    cases ch <;> first | rfl | cases hc
  rw [inverseOrder, noteLog, noteLog, List.filterMap_append, filterMap_partition h, List.filterMap_reverse]

theorem aliasLog_inverseOrder (changes : List FieldChange) :
    aliasLog (inverseOrder changes) = (aliasLog changes).reverse := by
  have h : ∀ ch : FieldChange, ch.isAlias = false → ch.toAlias = none := by
    intro ch hc
    cases ch <;> first | rfl | cases hc
  rw [inverseOrder, aliasLog, aliasLog, List.filterMap_append, filterMap_partition h, List.filterMap_reverse]

/-- The safe changes are those of the payload, in the same order. -/
theorem safeChanges_logs {env : Env} {s : Store} {keys : List Nat} (changes : List FieldChange) :
    ∀ {safe : List FieldChange}, safeChanges env s keys changes = .ok safe →
      entityLog safe = entityLog changes ∧ aliasLog safe = aliasLog changes ∧ noteLog safe = noteLog changes := by
  induction changes with
  | nil =>
    intro safe h
    cases h
    exact ⟨rfl, rfl, rfl⟩
  | cons ch changes ih =>
    intro safe h
    cases ch with
    | key c =>
      simp only [safeChanges, bind_ok] at h
      obtain ⟨keep, -, rest, hrest, h⟩ := h
      cases h
      obtain ⟨h1, h2, h3⟩ := ih hrest
      cases keep with
      | true => exact ⟨h1, h2, h3⟩
      | false => exact ⟨h1, h2, h3⟩
    | entity c =>
      simp only [safeChanges, bind_ok] at h
      obtain ⟨rest, hrest, h⟩ := h
      cases h
      obtain ⟨h1, h2, h3⟩ := ih hrest
      exact ⟨congrArg (List.cons c) h1, h2, h3⟩
    | aliasRow c =>
      simp only [safeChanges, bind_ok] at h
      obtain ⟨rest, hrest, h⟩ := h
      cases h
      obtain ⟨h1, h2, h3⟩ := ih hrest
      exact ⟨h1, congrArg (List.cons c) h2, h3⟩
    | note c =>
      simp only [safeChanges, bind_ok] at h
      obtain ⟨rest, hrest, h⟩ := h
      cases h
      obtain ⟨h1, h2, h3⟩ := ih hrest
      exact ⟨h1, h2, congrArg (List.cons c) h3⟩

/-! ## The tables after an undo -/

/-- The old values of a log, in the order they are written back. -/
def olds {κ φ : Type} (log : List (Change κ φ)) : List (κ × φ) := log.map (fun ch => (ch.id, ch.before))

/-- Restoring the changes writes their old values into the three tables. -/
theorem restore_tables (changes : List FieldChange) : ∀ {d d' : Draft},
    changes.foldlM (restore c) d = .ok d' →
      d'.store.entities = entityColumn.writeAll (olds (entityLog changes)) d.store.entities ∧
      d'.store.aliases = aliasColumn.writeAll (olds (aliasLog changes)) d.store.aliases ∧
      d'.store.notes = noteColumn.writeAll (olds (noteLog changes)) d.store.notes := by
  induction changes with
  | nil =>
    intro d d' h
    cases h
    exact ⟨rfl, rfl, rfl⟩
  | cons ch changes ih =>
    intro d d' h
    rw [List.foldlM_cons, bind_ok] at h
    obtain ⟨mid, hmid, h⟩ := h
    obtain ⟨he, ha, hn⟩ := ih h
    rw [he, ha, hn]
    cases ch with
    | entity c =>
      obtain ⟨row, -, hid, hsame⟩ := projectEntity_same hmid
      rw [hsame.store]
      cases c
      cases hid
      exact ⟨rfl, rfl, rfl⟩
    | aliasRow c =>
      obtain ⟨row, -, hid, hsame⟩ := projectAlias_same hmid
      rw [hsame.store]
      cases c
      cases hid
      exact ⟨rfl, rfl, rfl⟩
    | note c =>
      obtain ⟨row, -, hid, hsame⟩ := projectNote_same hmid
      rw [hsame.store]
      cases c
      cases hid
      exact ⟨rfl, rfl, rfl⟩
    | key c =>
      have hsame := projectKey_same hmid
      rw [hsame.entities, hsame.aliases, hsame.notes]
      exact ⟨rfl, rfl, rfl⟩

/-- The first loop of the inverse retires the aliases of the list. -/
theorem retire_tables (ids : List Nat) : ∀ {d d' : Draft},
    ids.foldlM (fun d id => projectAlias c id .now d) d = .ok d' →
      d'.store.entities = d.store.entities ∧ d'.store.notes = d.store.notes ∧
      ∃ ws, ws.map Prod.fst = ids ∧ (∀ w ∈ ws, w.2 ≠ none) ∧
      d'.store.aliases = aliasColumn.writeAll ws d.store.aliases := by
  induction ids with
  | nil =>
    intro d d' h
    cases h
    exact ⟨rfl, rfl, [], rfl, by simp, rfl⟩
  | cons id ids ih =>
    intro d d' h
    rw [List.foldlM_cons, bind_ok] at h
    obtain ⟨mid, hmid, h⟩ := h
    obtain ⟨he, hn, ws, hids, hws, ha⟩ := ih h
    obtain ⟨row, -, hid, hsame⟩ := projectAlias_same hmid
    rw [hsame.store] at he hn ha
    refine ⟨he, hn, (id, some (c.now d.ticks)) :: ws, ?_, ?_, ?_⟩
    · rw [List.map_cons, hids]
    · intro w hw
      cases List.mem_cons.mp hw with
      | inl hw =>
        rw [hw]
        exact Option.some_ne_none _
      | inr hw => exact hws w hw
    · rw [ha, ← hid]
      rfl

/-- The tables after an undo: the rows the target made are retired, its recorded
values are back. -/
structure Undone (created : Created) (changes : List FieldChange) (s s' : Store) : Prop where
  entities : s'.entities = entityColumn.rewind (entityLog changes) s.entities
  notes : s'.notes = noteColumn.rewind (noteLog changes) s.notes
  aliases : ∃ ws, ws.map Prod.fst = created.aliases ∧ (∀ w ∈ ws, w.2 ≠ none) ∧
    s'.aliases = aliasColumn.rewind (aliasLog changes) (aliasColumn.writeAll ws s.aliases)

theorem undoBody_tables {latest : Option KeyRow} {created : Created} {changes : List FieldChange}
    {s : Store} (h : undoBody c latest created changes s = .ok d) : Undone created changes s d.store := by
  simp only [undoBody, inverse, bind_ok] at h
  obtain ⟨inverted, ⟨retired, hretired, mid, hmid, hrestored⟩, h⟩ := h
  have hkeys : SameTables retired mid :=
    foldlM_invariant (P := SameTables retired) (fun _ _ _ _ ha hb => ha.trans (projectKey_same hb)) (.refl _) hmid
  obtain ⟨he, hn, ws, hids, hws, ha⟩ := retire_tables _ hretired
  obtain ⟨he', ha', hn'⟩ := restore_tables _ hrestored
  rw [entityLog_inverseOrder, hkeys.entities, he] at he'
  rw [aliasLog_inverseOrder, hkeys.aliases, ha] at ha'
  rw [noteLog_inverseOrder, hkeys.notes, hn] at hn'
  have hlast := refresh_same h
  exact ⟨hlast.entities.trans he', hlast.notes.trans hn', ws, hids, hws, hlast.aliases.trans ha'⟩

end EntityStore
