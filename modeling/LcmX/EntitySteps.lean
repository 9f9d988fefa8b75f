import LcmX.EntityTables

/-!
# Operations as acts

What each primitive does to the store, and each operation as a sequence of acts.
-/
namespace EntityStore

open ChangeLog Fallible Draft

/-! ## Touches leave the rest -/

/-- The two drafts differ in what they touch. -/
structure SameRows (d d' : Draft) : Prop where
  store : d'.store = d.store
  created : d'.payload.created = d.payload.created
  changes : d'.payload.changes = d.payload.changes

theorem SameRows.refl (d : Draft) : SameRows d d := ⟨rfl, rfl, rfl⟩

theorem SameRows.trans {a b c : Draft} (h : SameRows a b) (h' : SameRows b c) : SameRows a c :=
  ⟨h'.store.trans h.store, h'.created.trans h.created, h'.changes.trans h.changes⟩

theorem touchEntity_same (d : Draft) (id : Option EntityId) : SameRows d (d.touchEntity id) := by
  cases id <;> exact ⟨rfl, rfl, rfl⟩

theorem touchEntities_same (ids : List (Option EntityId)) : ∀ d : Draft, SameRows d (d.touchEntities ids) := by
  induction ids with
  | nil => exact fun d => .refl d
  | cons id ids ih => exact fun d => (touchEntity_same d id).trans (ih _)

theorem touchNote_same (d : Draft) (id : Option NoteId) : SameRows d (d.touchNote id) := by
  cases id <;> exact ⟨rfl, rfl, rfl⟩

theorem touchAlias_same {env : Env} {d d' : Draft} {id : Nat} (h : touchAlias env d id = .ok d') : SameRows d d' := by
  unfold touchAlias at h
  split at h
  · cases h
    exact .refl d
  · split at h
    · cases h
    · cases h
      exact ⟨rfl, rfl, rfl⟩

/-- The store after a write of `retired_at`, and what is recorded. -/
theorem projectAlias_same {c : Context} {id : Nat} {v : Stamp} {d d' : Draft} (h : projectAlias c id v d = .ok d') :
    ∃ row, ReadableAlias c.env d.store row ∧ row.aliasId = id ∧ SameRows (d.writeAlias row (stamp c d v)) d' := by
  obtain ⟨row, mid, hrow, hid, -, hmid, rfl⟩ := projectAlias_ok h
  exact ⟨row, hrow, hid, (touchAlias_same hmid).trans (touchEntity_same _ _)⟩

theorem touchEntities_aliases (ids : List (Option EntityId)) : ∀ d : Draft,
    (d.touchEntities ids).payload.touches.aliases = d.payload.touches.aliases := by
  induction ids with
  | nil => exact fun _ => rfl
  | cons id ids ih =>
    intro d
    refine (ih (d.touchEntity id)).trans ?_
    cases id <;> rfl

/-- A new alias: its row is free in the index, and the trusted reader sees it. -/
theorem newAlias_ok {c : Context} {row : Alias} {touched : List (Option EntityId)} {d d' : Draft} (hd : d.Sound)
    (h : newAlias c row touched d = .ok d') :
    indexConflict d.store { row with aliasId := d.store.nextAlias } = false ∧
      aliasVisible c.env trusted { row with aliasId := d.store.nextAlias } = true ∧
      touchAlias c.env ((d.withAlias { row with aliasId := d.store.nextAlias }).touchEntities touched)
        d.store.nextAlias = .ok d' := by
  rw [newAlias] at h
  simp only [bind_ok] at h
  obtain ⟨s, hs, h⟩ := h
  unfold insertAlias at hs
  split at hs
  · cases hs
  · rename_i hindex
    cases hs
    refine ⟨Bool.eq_false_iff.mpr hindex, ?_, h⟩
    have hsame := touchEntities_same touched (d.withAlias { row with aliasId := d.store.nextAlias })
    unfold touchAlias at h
    split at h
    · -- the id is new, so it has not been touched
      rename_i htouched
      rw [touchEntities_aliases] at htouched
      exact absurd (hd.touched _ htouched) hd.tables.alias_fresh
    · split at h
      · cases h
      · rename_i found hget
        obtain ⟨hmem, hid, hvis⟩ := getAlias_some hget
        have hmem' : found ∈ d.store.aliases ++ [{ row with aliasId := d.store.nextAlias }] :=
          (congrArg (fun s : Store => found ∈ s.aliases) hsame.store).mp hmem
        cases List.mem_append.mp hmem' with
        | inl hold =>
          have := hd.tables.aliasBelow found hold
          omega
        | inr hnew =>
          rw [← List.mem_singleton.mp hnew]
          exact hvis

theorem newAlias_acts {c : Context} {w : Writes} {row : Alias} {touched : List (Option EntityId)} {d d' : Draft}
    (hd : d.Sound) (hfield : row.retiredAt = none) (h : newAlias c row touched d = .ok d') : Acts c.env w d d' := by
  obtain ⟨hindex, hvis, htouch⟩ := newAlias_ok hd h
  refine .trans (.single (.aliasRow d { row with aliasId := d.store.nextAlias } rfl hfield hindex hvis)) ?_
  exact (touchEntities_acts touched _).trans (touchAlias_acts htouch)

theorem newKey_acts {env : Env} {w : Writes} (hw : w.keys) {row : KeyRow} {d d' : Draft} (h : newKey row d = .ok d') :
    Acts env w d d' := by
  rw [newKey, bind_ok] at h
  obtain ⟨s, hs, hd'⟩ := h
  unfold insertKey at hs
  split at hs
  · cases hs
  · cases hs
    cases hd'
    exact .single (.keys d _ _ _ _ ⟨_, rfl⟩ (Or.inl rfl) (List.Subset.refl _) rfl hw)

/-! ## Operations -/

/-- Rows are made, and unretired aliases of the store before are retired. -/
def plainWrites (s : Store) : Writes where
  entity := fun _ _ => False
  aliasRow := fun id before after => id < s.nextAlias ∧ before = none ∧ after ≠ none
  keys := False

section Operations

variable {c : Context} {d d' : Draft}

variable {w : Writes} {id new : EntityId} {name : String}

theorem addAlias_acts (hd : d.Sound) {display : String} {o : AliasOptions}
    (h : addAlias c id display o d = .ok d') : Acts c.env w d d' := by
  rw [addAlias, bind_ok] at h
  obtain ⟨-, -, h⟩ := h
  split at h
  · cases h
  · rw [bind_ok] at h
    obtain ⟨norm, -, h⟩ := h
    exact newAlias_acts hd rfl h

theorem retireAlias_acts (hd : d.Sound) {id : Nat} (h : retireAlias c id d = .ok d') :
    Acts c.env (plainWrites d.store) d d' := by
  rw [retireAlias, bind_ok] at h
  obtain ⟨row, hget, h⟩ := h
  obtain ⟨hrow, rfl⟩ := getLiveAlias_ok hget
  split at h
  · cases h
  · rename_i hactive
    refine projectAlias_acts (fun r hr hid => ?_) h
    rw [hd.tables.alias_unique hr hrow.mem hid]
    exact ⟨hd.tables.aliasBelow row hrow.mem, not_not.mp hactive, by simp [stamp]⟩

theorem addNote_acts {text : String} {o : NoteOptions} (h : addNote c text o d = .ok d') :
    Acts c.env w d d' := by
  simp only [addNote, bind_ok] at h
  obtain ⟨-, -, -, -, -, -, mid, hmid, h⟩ := h
  have hnew : Acts c.env w d mid :=
    .trans (touchEntities_acts _ d) (.trans (touchNote_acts _ _) (.trans (touchNote_acts _ _) (newNote_acts hmid)))
  split at h
  · cases h
    exact hnew
  · exact hnew.trans (projectNote_acts h)

theorem changeKind_acts {kind : Kind} (h : changeKind id kind d = .ok d') :
    Acts c.env w d d' := by
  rw [changeKind, bind_ok] at h
  obtain ⟨entity, -, h⟩ := h
  cases h
  have hlog : Act c.env w d
      { d with payload := { d.payload with kind := some ⟨id, currentKind d.store entity, kind⟩ } } :=
    .log d _ rfl rfl (List.Subset.refl _) (fun _ hid => Or.inl hid) (Or.inl rfl)
  exact .trans (.single hlog) (touchEntity_acts _ _)

/-- A merge writes one entity, and the writes of the others are allowed too. -/
theorem merge_acts (hw : ∀ id v, w.entity id v) {into fromEntity : EntityId} {allow : Bool}
    (h : merge into fromEntity allow d = .ok d') : Acts c.env w d d' := by
  simp only [merge, bind_ok] at h
  obtain ⟨target, -, source, -, h⟩ := h
  split at h
  · cases h
  · simp only [bind_ok] at h
    obtain ⟨a, -, b, -, h⟩ := h
    split at h
    · cases h
    · split at h
      · cases h
      · exact .trans (touchEntities_acts _ d) (.trans (touchEntities_acts _ _) (projectEntity_acts (hw _ _) h))

/-! ## Split -/

theorem newEntity_aliases {kind : Kind} (h : newEntity c name kind d = .ok d') :
    d'.store.aliases = d.store.aliases := by
  rw [newEntity, bind_ok] at h
  obtain ⟨s, hs, hd'⟩ := h
  unfold insertEntity at hs
  split at hs
  · cases hs
  · cases hs
    cases hd'
    rfl

/-- What moving one alias does to the alias table. -/
theorem splitAlias_aliases {row : Alias} (hd : d.Sound) (h : splitAlias c new d row = .ok d') :
    ∃ v copy, v ≠ none ∧ d'.store.aliases = aliasColumn.write row.aliasId v d.store.aliases ++ [copy] := by
  simp only [splitAlias, bind_ok] at h
  obtain ⟨mid, hmid, last, hlast, h⟩ := h
  cases h
  obtain ⟨r, hr, hid, hsame⟩ := projectAlias_same hmid
  have hmidSound : mid.Sound := by
    have hacts : Acts c.env ⟨fun _ _ => False, fun _ _ _ => True, False⟩ d mid :=
      projectAlias_acts (fun _ _ _ => trivial) hmid
    exact hacts.sound hd
  obtain ⟨-, -, htouch⟩ := newAlias_ok hmidSound hlast
  have hstore := ((touchEntities_same [] _).trans (touchAlias_same htouch)).store
  have hmidStore : mid.store.aliases = aliasColumn.write row.aliasId (some (c.now d.ticks)) d.store.aliases := by
    rw [hsame.store, ← hid]
    rfl
  refine ⟨some (c.now d.ticks),
    { row with aliasId := mid.store.nextAlias, entityId := new, retiredAt := none }, by simp, ?_⟩
  rw [(touchEntity_same last _).store, hstore, ← hmidStore]
  rfl

theorem splitAlias_acts {n : Nat} {row : Alias} (hd : d.Sound) (hrow : row ∈ d.store.aliases)
    (hactive : row.retiredAt = none) (hn : row.aliasId < n) (h : splitAlias c new d row = .ok d') :
    Acts c.env ⟨fun _ _ => False, fun id before after => id < n ∧ before = none ∧ after ≠ none, False⟩ d d' := by
  simp only [splitAlias, bind_ok] at h
  obtain ⟨mid, hmid, last, hlast, h⟩ := h
  cases h
  have hfirst : Acts c.env ⟨fun _ _ => False, fun id before after => id < n ∧ before = none ∧
      after ≠ none, False⟩ d mid := by
    refine projectAlias_acts (fun r hr hid => ?_) hmid
    rw [hd.tables.alias_unique hr hrow hid]
    exact ⟨hn, hactive, by simp [stamp]⟩
  exact hfirst.trans ((newAlias_acts (hfirst.sound hd) rfl hlast).trans (touchEntity_acts _ _))

/-- The loop over the aliases: a row that is still to be moved stands as read. -/
theorem splitAliases_acts {n : Nat} (rows : List Alias) : ∀ {d d' : Draft}, d.Sound →
    (rows.map Alias.aliasId).Nodup → (∀ r ∈ rows, r ∈ d.store.aliases ∧ r.retiredAt = none ∧ r.aliasId < n) →
    rows.foldlM (splitAlias c new) d = .ok d' →
    Acts c.env ⟨fun _ _ => False, fun id before after => id < n ∧ before = none ∧ after ≠ none, False⟩ d d' := by
  induction rows with
  | nil =>
    intro d d' _ _ _ h
    cases h
    exact .refl
  | cons row rows ih =>
    intro d d' hd hnodup hrows h
    rw [List.foldlM_cons, bind_ok] at h
    obtain ⟨mid, hmid, h⟩ := h
    obtain ⟨hmem, hactive, hn⟩ := hrows row List.mem_cons_self
    have hfirst := splitAlias_acts hd hmem hactive hn hmid
    rw [List.map_cons, List.nodup_cons] at hnodup
    refine hfirst.trans (ih (hfirst.sound hd) hnodup.2 (fun r hr => ?_) h)
    obtain ⟨hr1, hr2, hr3⟩ := hrows r (List.mem_cons_of_mem _ hr)
    obtain ⟨v, copy, -, haliases⟩ := splitAlias_aliases hd hmid
    have hne : aliasColumn.key r ≠ row.aliasId := fun he => hnodup.1 (he ▸ List.mem_map_of_mem hr)
    refine ⟨?_, hr2, hr3⟩
    rw [haliases]
    exact List.mem_append_left _ ((Column.mem_write aliasColumn).mpr (Or.inl ⟨hr1, hne⟩))

theorem splitNote_acts {row : Note} (h : splitNote c new d row = .ok d') :
    Acts c.env w d d' := by
  simp only [splitNote, bind_ok] at h
  obtain ⟨mid, hmid, h⟩ := h
  exact (newNote_acts hmid).trans (.trans (touchEntities_acts _ _) (.trans (touchNote_acts _ _) (projectNote_acts h)))

theorem nodup_eraseDups {α : Type} [DecidableEq α] (n : Nat) : ∀ l : List α, l.length ≤ n → l.eraseDups.Nodup := by
  induction n with
  | zero =>
    intro l hl
    rw [List.length_eq_zero_iff.mp (Nat.le_zero.mp hl)]
    exact List.nodup_nil
  | succ n ih =>
    intro l hl
    cases l with
    | nil => exact List.nodup_nil
    | cons a l =>
      rw [List.eraseDups_cons, List.nodup_cons]
      have hlen : (l.filter (fun b => !b == a)).length ≤ n :=
        Nat.le_trans (List.length_filter_le _ _) (Nat.le_of_succ_le_succ hl)
      exact ⟨by simp [List.mem_eraseDups], ih _ hlen⟩

theorem getLiveAliases_ids {env : Env} {s : Store} {ids : List Nat} {rows : List Alias}
    (h : ids.mapM (getLiveAlias env s) = .ok rows) : rows.map Alias.aliasId = ids := by
  have hread := mapM_ok h
  clear h
  induction hread with
  | nil => rfl
  | cons hr _ ih => rw [List.map_cons, ih, (getLiveAlias_ok hr).2]

/-- A split is a sequence of acts. -/
theorem split_acts {entityId : EntityId} {aliasIds : List Nat} {noteIds : List NoteId}
    {kind : Option Kind} (hd : d.Sound) (h : split c entityId aliasIds noteIds name kind d = .ok d') :
    Acts c.env (plainWrites d.store) d d' := by
  simp only [split, bind_ok] at h
  obtain ⟨entity, -, h⟩ := h
  split at h
  · cases h
  · simp only [bind_ok] at h
    obtain ⟨aliases, haliases, notes, -, h⟩ := h
    split at h
    · cases h
    · split at h
      · cases h
      · rename_i hforeign
        simp only [bind_ok] at h
        obtain ⟨mid, hmid, last, hlast, h⟩ := h
        have hnodup : (aliases.map Alias.aliasId).Nodup := by
          rw [getLiveAliases_ids haliases]
          exact nodup_eraseDups _ aliasIds (Nat.le_refl _)
        have hrows : ∀ r ∈ aliases, r ∈ d.store.aliases ∧ r.retiredAt = none ∧ r.aliasId < d.store.nextAlias := by
          intro r hr
          obtain ⟨id, -, hget⟩ := mapM_mem haliases hr
          have hmem := (getLiveAlias_ok hget).1.mem
          simp only [Bool.or_eq_true, not_or] at hforeign
          have hr' := List.any_eq_false.mp (Bool.eq_false_iff.mpr hforeign.1) r hr
          simp only [Bool.or_eq_true, decide_eq_true_eq, not_or, not_not] at hr'
          exact ⟨hmem, hr'.2, hd.tables.aliasBelow r hmem⟩
        have hmade : Acts c.env (plainWrites d.store) d (mid.touchEntity (some entityId)) :=
          (newEntity_acts hmid).trans (touchEntity_acts _ _)
        -- the new entity leaves the aliases as they were read
        have hkept : (mid.touchEntity (some entityId)).store.aliases = d.store.aliases := by
          rw [(touchEntity_same mid _).store]
          exact newEntity_aliases hmid
        have hmoved := splitAliases_acts aliases (hmade.sound hd) hnodup (fun r hr => hkept ▸ hrows r hr) hlast
        refine foldlM_invariant (fun r _ a b ha hb => ha.trans (splitNote_acts hb)) (hmade.trans hmoved) h

theorem createForPlatformId_acts (hd : d.Sound) {pid : String}
    (h : createForPlatformId c pid name d = .ok d') : Acts c.env w d d' := by
  simp only [createForPlatformId, bind_ok] at h
  obtain ⟨mid, hmid, h⟩ := h
  have hfirst : Acts c.env w d mid := newEntity_acts hmid
  exact hfirst.trans (addAlias_acts (hfirst.sound hd) h)

/-! ## Overrides and undo -/

theorem keyHeld_ok {α : Type} {x : Except Refusal α} {a : α} : keyHeld x = .ok a ↔ x = .ok a := by
  unfold keyHeld
  split
  · simp
  · simp
  · rfl

theorem overrideSlot_acts (hw : w.keys) {subject : String} {owner : Option EntityId} {row : KeyRow}
    (h : overrideSlot c subject owner d row = .ok d') : Acts c.env w d d' := by
  simp only [overrideSlot, bind_ok] at h
  obtain ⟨mid, hmid, h⟩ := h
  split at h
  · simp only [bind_ok] at h
    obtain ⟨last, hlast, s, hs, h⟩ := h
    unfold setKeyRetired at hs
    split at hs
    · cases hs
    · cases hs
      cases h
      refine (projectKey_acts hw hmid).trans ((newKey_acts hw hlast).trans (.single ?_))
      exact .keys last _ _ _ _ ⟨_, rfl⟩ (Or.inl rfl) (List.Subset.refl _) rfl hw
  · cases h
    exact projectKey_acts hw hmid

/-- Overriding a key is a sequence of acts. -/
theorem overrideKey_acts (hw : w.keys) {subject : String} {scope : Option (List Int)}
    {owner : Option EntityId} (h : overrideKey c subject id scope owner d = .ok d') : Acts c.env w d d' := by
  rw [overrideKey, keyHeld_ok] at h
  simp only [overrideKeyBody, bind_ok] at h
  obtain ⟨target, -, h⟩ := h
  split at h
  · cases h
  · simp only [bind_ok] at h
    obtain ⟨entity, -, h⟩ := h
    split at h
    · cases h
    · simp only [bind_ok] at h
      obtain ⟨-, -, view, -, h⟩ := h
      split at h
      · cases h
      · split at h
        · cases h
        · simp only [bind_ok] at h
          obtain ⟨current, -, h⟩ := h
          have hstart : ∀ o ids key, Acts c.env w d
              (({ d with payload := { d.payload with override := o } }.touchEntities ids).touchKey key) := by
            intro o ids key
            have hlog : Act c.env w d { d with payload := { d.payload with override := o } } :=
              .log d _ rfl rfl (List.Subset.refl _) (fun _ hid => Or.inl hid) (Or.inr hw)
            exact .trans (.single hlog) (.trans (touchEntities_acts _ _) (touchKey_acts _ _))
          split at h
          · simp only [bind_ok] at h
            obtain ⟨mid, hmid, h⟩ := h
            have hloop : Acts c.env w d mid :=
              foldlM_invariant (fun _ _ _ _ ha hb => ha.trans (overrideSlot_acts hw hb)) (hstart _ _ _) hmid
            exact hloop.trans (newKey_acts hw h)
          · cases h
            exact hstart _ _ _

def anyWrites : Writes := ⟨fun _ _ => True, fun _ _ _ => True, True⟩

theorem restore_acts {change : FieldChange} (h : restore c d change = .ok d') : Acts c.env anyWrites d d' := by
  cases change with
  | entity ch => exact projectEntity_acts trivial h
  | aliasRow ch => exact projectAlias_acts (fun _ _ _ => trivial) h
  | note ch => exact projectNote_acts h
  | key ch => exact projectKey_acts trivial h

theorem inverse_acts {created : Created} {changes : List FieldChange} (h : inverse c created changes d = .ok d') :
    Acts c.env anyWrites d d' := by
  simp only [inverse, bind_ok] at h
  obtain ⟨mid, hmid, last, hlast, h⟩ := h
  have h1 : Acts c.env anyWrites d mid :=
    foldlM_invariant (fun _ _ _ _ ha hb => ha.trans (projectAlias_acts (fun _ _ _ => trivial) hb)) .refl hmid
  have h2 : Acts c.env anyWrites d last :=
    foldlM_invariant (fun _ _ _ _ ha hb => ha.trans (projectKey_acts trivial hb)) h1 hlast
  exact foldlM_invariant (fun _ _ _ _ ha hb => ha.trans (restore_acts hb)) h2 h

theorem refresh_acts (hw : w.keys) {latest : Option KeyRow} (h : refresh c latest d = .ok d') :
    Acts c.env w d d' := by
  unfold refresh at h
  split at h
  · cases h
    exact .refl
  · refine foldlM_invariant (fun _ _ a b ha hb => ?_) .refl h
    simp only [refreshRow, bind_ok] at hb
    obtain ⟨mid, hmid, hb⟩ := hb
    exact ha.trans ((projectKey_acts hw hmid).trans (newKey_acts hw hb))

theorem undoBody_acts {s : Store} {latest : Option KeyRow} {created : Created} {changes : List FieldChange}
    (h : undoBody c latest created changes s = .ok d') : Acts c.env anyWrites { store := s } d' := by
  simp only [undoBody, bind_ok] at h
  obtain ⟨mid, hmid, h⟩ := h
  exact (inverse_acts hmid).trans (refresh_acts trivial h)

end Operations

end EntityStore
