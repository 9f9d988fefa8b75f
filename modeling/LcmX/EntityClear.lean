import LcmX.EntityIndex

/-!
# Calls that stay clear of the index

One lemma for each operation. The loops of a split and of an undo carry what
the rows of the draft were in the store.
-/
namespace EntityStore

open ChangeLog Fallible Draft

variable {c : Context} {s : Store} {d : Draft}

variable {a : Alias} {env : Env} {id new : EntityId} {norm pid display name : String}
  {o : AliasOptions}

theorem indexConflict_free (h : a.aliasKind = .platformId → ∀ b ∈ s.aliases, b.indexed = true →
    b.aliasNorm = a.aliasNorm → b.aliasId = a.aliasId) : indexConflict s a = false := by
  rw [indexConflict, Bool.and_eq_false_iff]
  by_cases hkind : a.aliasKind = .platformId
  · right
    rw [List.any_eq_false]
    intro b hb hconflict
    simp only [Bool.and_eq_true, decide_eq_true_eq] at hconflict
    obtain ⟨⟨hi, hne⟩, hnorm⟩ := hconflict
    exact hne (h hkind b hb hi hnorm)
  · left
    simpa using hkind

theorem indexConflict_held {b : Alias} (hkind : a.aliasKind = .platformId) (hb : b ∈ s.aliases) (hi : b.indexed = true)
    (hne : b.aliasId ≠ a.aliasId) (hnorm : b.aliasNorm = a.aliasNorm) : indexConflict s a = true := by
  rw [indexConflict, hkind]
  simp only [decide_true, Bool.true_and, List.any_eq_true]
  exact ⟨b, hb, by simp [hi, hne, hnorm]⟩

/-! ## Holders -/

/-- A message that the row cites is gone. -/
def Orphaned (env : Env) (a : Alias) : Prop := ∃ id ∈ a.sourceStoreIds, ∀ m ∈ env.messages, m.storeId ≠ id

theorem messageVisible_trusted {id : Int} : messageVisible env trusted id = true ↔
    ∃ m ∈ env.messages, m.storeId = id := by
  unfold messageVisible
  split
  · rename_i hnone
    simpa using List.find?_eq_none.mp hnone
  · rename_i m hsome
    have hm := List.mem_of_find?_eq_some hsome
    have hid := List.find?_some hsome
    simp only [trusted, true_iff]
    exact ⟨m, hm, by simpa using hid⟩

/-- The trusted reader sees what is not orphaned. -/
theorem aliasVisible_trusted : aliasVisible env trusted a = false ↔ Orphaned env a := by
  have hnamed : named trusted = true := by decide
  have hprincipal : trusted.principal.isNone = true := rfl
  have hall : aliasVisible env trusted a = a.sourceStoreIds.all (messageVisible env trusted) := by
    simp [aliasVisible, visible, hnamed, hprincipal]
  rw [hall, List.all_eq_false, Orphaned]
  constructor
  · rintro ⟨id, hid, hhidden⟩
    refine ⟨id, hid, fun m hm he => hhidden ?_⟩
    exact messageVisible_trusted.mpr ⟨m, hm, he⟩
  · rintro ⟨id, hid, hgone⟩
    refine ⟨id, hid, fun hvisible => ?_⟩
    obtain ⟨m, hm, he⟩ := messageVisible_trusted.mp hvisible
    exact hgone m hm he

/-- An unretired row that holds a platform id and that the trusted reader does not see. -/
def OrphanedHolder (env : Env) (s : Store) (norm : String) : Prop :=
  ∃ b ∈ s.aliases, b.indexed = true ∧ b.aliasNorm = norm ∧ Orphaned env b

theorem mem_aliasesByNorm : a ∈ aliasesByNorm env s norm ↔
    a ∈ s.aliases ∧ a.aliasNorm = norm ∧ a.retiredAt = none ∧ aliasVisible env trusted a = true := by
  simp [aliasesByNorm, List.mem_filter, and_assoc]

/-- No holder is found: a row that holds the platform id is orphaned. -/
theorem holder_none (hpid : platformId env.unicode pid = .ok norm)
    (h : holderForPlatformId env s pid = .ok none) {b : Alias} (hb : b ∈ s.aliases) (hi : b.indexed = true)
    (hnorm : b.aliasNorm = norm) : Orphaned env b := by
  rw [holderForPlatformId, bind_of_ok hpid] at h
  obtain ⟨hkind, hnone⟩ := indexed_iff.mp hi
  cases hfind : (aliasesByNorm env s norm).find? (fun a => a.aliasKind = .platformId) with
  | none =>
    rw [← aliasVisible_trusted, ← Bool.not_eq_true]
    intro hvisible
    have hin := mem_aliasesByNorm.mpr ⟨hb, hnorm, hnone, hvisible⟩
    exact absurd (List.find?_eq_none.mp hfind b hin) (by simpa using hkind)
  | some a =>
    rw [hfind, bind_ok] at h
    obtain ⟨target, -, h⟩ := h
    cases h

/-- No holder is found when the row that holds the platform id is orphaned. -/
theorem holder_orphaned (hs : Tables s) (hpid : platformId env.unicode pid = .ok norm)
    (h : OrphanedHolder env s norm) : holderForPlatformId env s pid = .ok none := by
  obtain ⟨b, hb, hi, hnorm, horphaned⟩ := h
  have hfind : (aliasesByNorm env s norm).find? (fun a => a.aliasKind = .platformId) = none := by
    rw [List.find?_eq_none]
    intro a ha hkind
    obtain ⟨hmem, hanorm, hnone, hvisible⟩ := mem_aliasesByNorm.mp ha
    have hai := indexed_iff.mpr ⟨by simpa using hkind, hnone⟩
    rw [hs.index a hmem b hb hai hi (hanorm.trans hnorm.symm), aliasVisible_trusted.mpr horphaned] at hvisible
    cases hvisible
  rw [holderForPlatformId, bind_of_ok hpid, hfind]

/-! ## Adding -/

theorem clear_aliasNorm : Clear (aliasNorm c display o s) := by
  unfold aliasNorm
  split
  · split
    · exact fails_error (by decide)
    · split
      · exact fails_error (by decide)
      · refine Fails.bind (fails_platformId (by decide)) fun norm _ => ?_
        split
        · exact fails_error (by decide)
        · refine Fails.bind (fails_holder (by decide) (by decide) (by decide)) fun holder _ => ?_
          split
          · exact fails_error (by simp)
          · exact fails_ok _
  · exact fails_ok _

/-- What the text of a platform id has passed. -/
theorem aliasNorm_ok (hkind : o.aliasKind = .platformId)
    (h : aliasNorm c display o s = .ok norm) : ∃ platform, o.platform = some platform ∧
      platform ≠ "" ∧ o.verified = true ∧
      platformId c.env.unicode (normalizePlatformId c.env.unicode platform display) = .ok norm ∧
        holderForPlatformId c.env s norm = .ok none := by
  rw [aliasNorm, if_pos hkind] at h
  split at h
  · cases h
  · rename_i platform hplatform
    split at h
    · cases h
    · rename_i hnonempty
      rw [bind_ok] at h
      obtain ⟨text, htext, h⟩ := h
      split at h
      · cases h
      · rename_i hverified
        rw [bind_ok] at h
        obtain ⟨holder, hholder, h⟩ := h
        split at h
        · cases h
        · cases h
          exact ⟨platform, hplatform, hnonempty, by simpa using hverified, htext, hholder⟩

/-- An add reaches the index only where the holder is orphaned. -/
theorem clear_addAlias (hu : c.env.unicode.Lowers)
    (horphan : o.aliasKind = .platformId → ∀ norm, aliasNorm c display o d.store = .ok norm →
      ¬ OrphanedHolder c.env d.store norm) :
    Clear (addAlias c id display o d) := by
  refine (fails_checkEntities (by decide)).bind fun _ _ => ?_
  split
  · exact fails_error (by decide)
  · refine clear_aliasNorm.bind fun norm hnorm => clear_newAlias (indexConflict_free fun hkind b hb hi heq => ?_)
    obtain ⟨platform, -, -, -, htext, hholder⟩ := aliasNorm_ok hkind hnorm
    exact absurd ⟨b, hb, hi, heq, holder_none (platformId_idem hu htext) hholder hb hi heq⟩ (horphan hkind norm hnorm)

theorem clear_createForPlatformId (hu : c.env.unicode.Lowers) (hpid : platformId c.env.unicode pid = .ok norm)
    (horphan : ¬ OrphanedHolder c.env d.store norm) : Clear (createForPlatformId c norm name d) := by
  refine clear_newEntity.bind fun mid hmid => clear_addAlias hu fun hkind text htext => ?_
  obtain ⟨platform, hplatform, -, -, hjoin, -⟩ := aliasNorm_ok hkind htext
  cases hplatform
  rw [(platformId_parts hu hpid).2] at hjoin
  cases hjoin
  rintro ⟨b, hb, hrest⟩
  rw [(quiet_newEntity hmid).aliases] at hb
  exact horphan ⟨b, hb, hrest⟩

theorem clear_logged {name : OpName} {body : Draft → Except Refusal Draft} {r : Returned}
    (h : Clear (body { store := s })) :
    Clear (logged name body r s) := h.bind fun _ _ => fails_ok _

theorem clear_attachOrCreate (hu : c.env.unicode.Lowers) {verified : Bool}
    (horphan : verified = true → ∀ norm, platformId c.env.unicode pid = .ok norm → ¬ OrphanedHolder c.env s norm) :
    Clear (attachOrCreate c pid name verified s) := by
  refine Fails.bind (fails_platformId (by decide)) fun norm hnorm => ?_
  split
  · exact fails_error (by decide)
  · rename_i hverified
    refine Fails.bind (fails_holder (by decide) (by decide) (by decide)) fun holder _ => ?_
    split
    · exact fails_ok _
    · exact clear_logged (clear_createForPlatformId hu hnorm (horphan (by simpa using hverified) norm hnorm))

/-! ## The operations that add no alias -/

theorem clear_retireAlias {id : Nat} : Clear (retireAlias c id d) := by
  refine Fails.bind (fails_getRow (by decide)) fun row _ => ?_
  split
  · exact fails_error (by decide)
  · exact clear_retire

theorem clear_addNote {text : String} {o : NoteOptions} : Clear (addNote c text o d) := by
  refine (fails_checkEntities (by decide)).bind fun _ _ => ?_
  refine (fails_checkNote (by decide)).bind fun _ _ => (fails_checkNote (by decide)).bind fun _ _ => ?_
  refine clear_newNote.bind fun mid _ => ?_
  split
  · exact fails_ok _
  · exact clear_projectNote

theorem clear_changeKind {kind : Kind} : Clear (changeKind id kind d) :=
  (fails_getLiveEntity (by decide)).bind fun _ _ => fails_ok _

theorem clear_merge {into fromEntity : EntityId} {allow : Bool} : Clear (merge into fromEntity allow d) := by
  refine (fails_canonical (by decide) (by decide)).bind fun target _ => ?_
  refine (fails_canonical (by decide) (by decide)).bind fun source _ => ?_
  split
  · exact fails_error (by decide)
  · refine (fails_getLiveEntity (by decide)).bind fun a _ => (fails_getLiveEntity (by decide)).bind fun b _ => ?_
    split
    · exact fails_error (by decide)
    · split
      · exact fails_error (by decide)
      · exact clear_projectEntity

theorem clear_overrideSlot {subject : String} {owner : Option EntityId} {row : KeyRow} :
    Clear (overrideSlot c subject owner d row) := by
  refine clear_projectKey.bind fun mid _ => ?_
  split
  · refine clear_newKey.bind fun last _ => Fails.bind ?_ fun _ _ => fails_ok _
    unfold setKeyRetired
    split
    · exact fails_error (by decide)
    · exact fails_ok _
  · exact fails_ok _

theorem clear_overrideKeyBody {subject : String} {scope : Option (List Int)} {owner : Option EntityId} :
    Clear (overrideKeyBody c subject id scope owner d) := by
  refine (fails_canonical (by decide) (by decide)).bind fun target _ => ?_
  split
  · exact fails_error (by decide)
  · refine (fails_getLiveEntity (by decide)).bind fun entity _ => ?_
    dsimp only
    split
    · exact fails_error (by decide)
    · refine Fails.bind (fails_checkEntities (by decide)) fun _ _ => ?_
      refine Fails.bind (fails_resolvedView (by decide) (by decide)) fun view _ => ?_
      split
      · exact fails_error (by decide)
      · split
        · exact fails_error (by decide)
        · refine (fails_keySources (by decide)).bind fun current _ => ?_
          split
          · refine Fails.bind ?_ fun last _ => clear_newKey
            exact fails_foldlM (I := fun _ => True) (fun _ _ _ _ => ⟨clear_overrideSlot, fun _ _ => trivial⟩) trivial
          · exact fails_ok _

/-! ## Split -/

theorem clear_getRows {α : Type} (get : Nat → Option α) (void : List Nat) (ids : List Nat) :
    Clear (ids.mapM (fun id => getRow (get id) (id ∈ void))) :=
  fails_mapM fun _ _ => fails_getRow (by decide)

/-- A retired alias leaves its platform id free for its copy. -/
theorem clear_splitAlias {row : Alias} (h : Mentioned s d) (hsound : d.Sound) (hrow : Movable s d row) :
    Clear (splitAlias c new d row) := by
  refine clear_retire.bind fun mid hmid => ?_
  refine (clear_newAlias (indexConflict_free fun hkind b hb hi hnorm => ?_)).bind fun last _ => fails_ok _
  obtain ⟨found, hfound, hid, hretires⟩ := projectAlias_retires hsound.tables.aliasIds (h.untouched hrow) hmid
  obtain rfl := hsound.tables.alias_unique hfound.mem hrow.mem hid
  rw [hretires.aliases] at hb
  rcases (Column.mem_write aliasColumn).mp hb with ⟨hb, hne⟩ | ⟨r, -, -, rfl⟩
  · have hsame := hsound.tables.index b hb found hrow.mem hi (indexed_iff.mpr ⟨hkind, hrow.active⟩) hnorm
    exact absurd (congrArg Alias.aliasId hsame) hne
  · exact absurd (indexed_iff.mp hi).2 hretires.value

theorem clear_splitAliases (rows : List Alias) : ∀ {d : Draft}, Splitting s new d → (rows.map Alias.aliasId).Nodup →
    (∀ r ∈ rows, Movable s d r) → Clear (rows.foldlM (splitAlias c new) d) := by
  induction rows with
  | nil => exact fun _ _ _ => fails_ok _
  | cons row rows ih =>
    intro d h hnodup hrows
    rw [List.map_cons, List.nodup_cons] at hnodup
    have hrow := hrows row List.mem_cons_self
    rw [List.foldlM_cons]
    refine (clear_splitAlias h.mentioned h.sound hrow).bind fun mid hmid => ih
      (h.next hrow hmid) hnodup.2 fun r hr => ?_
    have hne : r.aliasId ≠ row.aliasId := fun he => hnodup.1 (he ▸ List.mem_map_of_mem hr)
    exact hrow.other (hrows r (List.mem_cons_of_mem _ hr)) hne h.mentioned h.sound hmid

theorem clear_splitNote {row : Note} : Clear (splitNote c new d row) :=
  clear_newNote.bind fun _ _ => clear_projectNote

theorem clear_split (hs : Tables s) (hvoid : ∀ id ∈ voided Created.entities s, id ∈ s.entities.map Entity.entityId)
    {entityId : EntityId} {aliasIds : List Nat} {noteIds : List NoteId} {kind : Option Kind} :
    Clear (split c entityId aliasIds noteIds name kind { store := s }) := by
  refine (fails_getLiveEntity (by decide)).bind fun entity _ => ?_
  split
  · exact fails_error (by decide)
  · refine (clear_getRows (getAlias c.env s) (voided Created.aliases s) _).bind fun aliases haliases => ?_
    refine (clear_getRows (getNote c.env s) (voided Created.notes s) _).bind fun notes _ => ?_
    split
    · exact fails_error (by decide)
    · split
      · exact fails_error (by decide)
      · rename_i hforeign
        refine clear_newEntity.bind fun mid hmid => ?_
        have hok := splitOk haliases hforeign
        have hquiet := (quiet_newEntity hmid).trans (quiet_touchEntity mid (some entityId))
        refine (clear_splitAliases aliases (splitting_start hs hvoid hmid) hok.nodup
          fun r hr => hok.movable hquiet hr).bind fun last _ => ?_
        exact fails_foldlM (I := fun _ => True) (fun _ _ _ _ => ⟨clear_splitNote, fun _ _ => trivial⟩) trivial

/-! ## Undo -/

/-- What the target had retired comes back to a free platform id. -/
theorem clear_restore (hinv : PlatformInv s) (hs : WellFormed s) {id : Nat} {t : Event}
    {p : Payload} (hok : UndoOk c id s t p)
    (h : Rewinding s p d) {ch : FieldChange} (hch : ∀ x, ch = .aliasRow x → x ∈ aliasLog p.changes) :
      Clear (EntityStore.restore c d ch) := by
  cases ch with
  | entity x => exact clear_projectEntity
  | note x => exact clear_projectNote
  | key x => exact clear_projectKey
  | aliasRow x =>
    refine clear_projectAlias fun row hrow hid _ => indexConflict_free fun hkind b hb hi hnorm => ?_
    obtain ⟨-, a, ha, haid, hrecorded⟩ := hinv.logged t p hok.toStanding x (hch x rfl)
    obtain ⟨a0, ha0, hasame, -⟩ := h row hrow.mem
    obtain rfl := hs.tables.alias_unique ha ha0 (by rw [haid, ← hasame.aliasId, hid])
    obtain ⟨b0, hb0, hbsame, hstate⟩ := h b hb
    obtain ⟨hbkind, hbnone⟩ := indexed_iff.mp hi
    have hakind := hasame.aliasKind.symm.trans hkind
    have hb0kind := hbsame.aliasKind.symm.trans hbkind
    have hnorm0 : b0.aliasNorm = a.aliasNorm := by rw [← hbsame.aliasNorm, hnorm, hasame.aliasNorm]
    rw [hbsame.aliasId, hasame.aliasId]
    obtain hin | ⟨hnone, hnot⟩ := hstate hbnone
    · have hain : a.aliasId ∈ retiredIds p := haid ▸ List.mem_map_of_mem (hch x rfl)
      rw [hinv.distinct t p hok.toStanding b0 hb0 a ha hb0kind hakind hnorm0 hin hain]
    · obtain hcreated | hblocked :=
        hinv.holder hs.log hok.toStanding hrecorded hb0 (indexed_iff.mpr ⟨hb0kind, hnone⟩) hakind hnorm0
      · exact absurd hcreated hnot
      · exact absurd (hok.eventId ▸ hok.free) hblocked

theorem clear_refresh {latest : Option KeyRow} : Clear (refresh c latest d) := by
  unfold refresh
  split
  · exact fails_ok _
  · exact fails_foldlM (I := fun _ => True)
      (fun _ _ _ _ => ⟨clear_projectKey.bind fun _ _ => clear_newKey, fun _ _ => trivial⟩) trivial

theorem clear_undoBody (hinv : PlatformInv s) (hs : WellFormed s) {id : Nat} {t : Event}
    {p : Payload} (hok : UndoOk c id s t p)
    {keys : List Nat} {changes : List FieldChange}
    (hsafe : safeChanges c.env s keys p.changes = .ok changes) {latest : Option KeyRow} :
    Clear (undoBody c latest { p.created with keys := keys } changes s) := by
  have hlog := fun ch (hch : ch ∈ inverseOrder changes) => inverse_logged hsafe hch
  refine Fails.bind ?_ fun inverted _ => clear_refresh
  refine Fails.bind ?_ fun retired hretired => ?_
  · exact fails_foldlM (I := fun _ => True) (fun _ _ _ _ => ⟨clear_retire, fun _ _ => trivial⟩) trivial
  refine Fails.bind ?_ fun mid hmid => ?_
  · exact fails_foldlM (I := fun _ => True) (fun _ _ _ _ => ⟨clear_projectKey, fun _ _ => trivial⟩) trivial
  exact fails_foldlM (I := Rewinding s p)
    (fun ch hch b hb => ⟨clear_restore hinv hs hok hb (hlog ch hch), fun b' hrun => hb.restore (hlog ch hch) hrun⟩)
    (Rewinding.keyRows (rewinding_retired hretired) hmid)

end EntityStore
