import LcmX.EntityClear

/-!
# One holder for a platform id

A call that brings in a platform id which another alias holds is refused or
attaches to the holder, unless the holder is orphaned. Only then an add or an
attach runs into the index.
-/
namespace EntityStore

open ChangeLog Fallible Draft

/-- The call fails at the index of platform ids, also where the failure is then refused. -/
def ReachesIndex (c : Context) (s : Store) : Op → Prop
  | .overrideKey subjectKey entityId scopeStoreIds owner =>
    overrideKeyBody c subjectKey entityId scopeStoreIds owner { store := s } = .error .aliasIndex
  | .undo id => ∃ target created changes, undoPlan c id s = .ok (target, created, changes) ∧
      undoBody c (target.payload.bind (derivation s)) created changes s = .error .aliasIndex
  | op => execute c s op = .error .aliasIndex

/-- The platform id of an add. -/
def AddsPlatformId (c : Context) (display norm : String) (o : AliasOptions) : Prop :=
  o.aliasKind = .platformId ∧ ∃ platform, o.platform = some platform ∧ platform ≠ "" ∧
    platformId c.env.unicode (normalizePlatformId c.env.unicode platform display) = .ok norm

/-- An unretired alias other than that of the id has the platform id. -/
def HeldBy (s : Store) (norm : String) (b : Alias) : Prop := b ∈ s.aliases ∧ b.indexed = true ∧ b.aliasNorm = norm

/-- The call is to bring in a platform id that an alias holds which it does not retire itself. -/
def Conflicts (c : Context) (s : Store) : Op → Prop
  | .addAlias _ display o => ∃ norm, AddsPlatformId c display norm o ∧ ∃ b, HeldBy s norm b
  | .attachOrCreate pid _ _ => ∃ norm, platformId c.env.unicode pid = .ok norm ∧ ∃ b, HeldBy s norm b
  | .split _ aliasIds _ _ _ => ∃ a ∈ s.aliases, a.aliasId ∈ aliasIds ∧ a.aliasKind = .platformId ∧
      ∃ b, HeldBy s a.aliasNorm b ∧ b.aliasId ≠ a.aliasId
  | .undo id => ∃ t ∈ s.events, t.eventId = id ∧ ∃ p, t.payload = some p ∧ ∃ a ∈ s.aliases, a.aliasKind = .platformId ∧
      (∃ ch ∈ aliasLog p.changes, ch.id = a.aliasId ∧ ch.before = none) ∧
        ∃ b, HeldBy s a.aliasNorm b ∧ b.aliasId ≠ a.aliasId ∧ b.aliasId ∉ p.created.aliases
  | _ => False

/-- The call is an `EntityOpRefused`, or it attaches: the holder is returned and nothing is written. -/
def Settles (c : Context) (s : Store) (op : Op) : Prop :=
  (∃ r : Refusal, execute c s op = .error r ∧ r.typed = true) ∨
    ∃ pid name verified norm b holder, op = .attachOrCreate pid name verified ∧
      platformId c.env.unicode pid = .ok norm ∧
      HeldBy s norm b ∧ canonical (liveEntities s) b.entityId = .ok holder ∧ execute c s op = .ok (s, .entity holder)

/-- The call stays clear of the index, and a conflict is settled. -/
def Guarded (c : Context) (s : Store) (op : Op) : Prop := ¬ ReachesIndex c s op ∧ (Conflicts c s op → Settles c s op)

/-- The call adds, verified, a platform id whose holder cites a message that is gone. -/
def AddsOrphaned (c : Context) (s : Store) : Op → Prop
  | .addAlias entityId display o => checkEntities s [some entityId, o.ownerEntityId] = .ok () ∧ o.verified = true ∧
      ∃ norm, AddsPlatformId c display norm o ∧ OrphanedHolder c.env s norm
  | .attachOrCreate pid _ verified =>
    verified = true ∧ ∃ norm, platformId c.env.unicode pid = .ok norm ∧ OrphanedHolder c.env s norm
  | _ => False

variable {c : Context} {s : Store}

/-! ## Clear of the index -/

/-- An operation that adds no orphaned id does not reach the index. -/
theorem clear_execute (hs : Reachable s) (hu : c.env.unicode.Lowers) {op : Op}
    (h : ¬ AddsOrphaned c s op) : ¬ ReachesIndex c s op := by
  have hinv := platformInv_reachable hs
  have hwell := hs.wellFormed
  have hlogged : ∀ {name : OpName} {body : Draft → Except Refusal Draft} {r : Returned},
      Clear (body { store := s }) → logged name body r s ≠ .error .aliasIndex :=
    fun hbody he => clear_logged hbody _ he rfl
  cases op with
  | createEntity name kind => exact hlogged clear_newEntity
  | addAlias id display o =>
    intro he
    have hsplit : checkEntities s [some id, o.ownerEntityId] = .ok () := by
      cases hcheck : checkEntities s [some id, o.ownerEntityId] with
      | ok u => rfl
      | error r =>
        have hfails := fails_checkEntities (P := fun e => e = .notFound) rfl r hcheck
        simp [ReachesIndex, execute, logged, addAlias, hcheck, bind, Except.bind] at he
        rw [hfails] at he
        cases he
    refine hlogged (clear_addAlias hu fun hkind norm hnorm => ?_) he
    obtain ⟨platform, hplatform, hne, hverified, htext, -⟩ := aliasNorm_ok hkind hnorm
    exact fun horphaned => h ⟨hsplit, hverified, norm, ⟨hkind, platform, hplatform, hne, htext⟩, horphaned⟩
  | retireAlias id => exact hlogged clear_retireAlias
  | addNote text options => exact hlogged clear_addNote
  | changeKind id kind => exact hlogged clear_changeKind
  | merge into fromEntity allow => exact hlogged clear_merge
  | split id aliasIds noteIds name kind => exact hlogged (clear_split hwell.tables hinv.voided_listed)
  | attachOrCreate pid name verified =>
    intro he
    exact clear_attachOrCreate hu (fun hverified norm hnorm horphaned => h ⟨hverified, norm, hnorm, horphaned⟩) _ he rfl
  | overrideKey subject id scope owner => exact fun he => clear_overrideKeyBody _ he rfl
  | undo id =>
    rintro ⟨target, created, changes, hplan, he⟩
    obtain ⟨p, keys, hok, hsafe, rfl⟩ := undoPlan_ok hplan
    exact clear_undoBody hinv hwell hok hsafe _ he rfl

/-! ## Conflicts are settled -/

/-- The call is refused. -/
def Refused {α : Type} (x : Except Refusal α) : Prop := ∃ r : Refusal, x = .error r ∧ r.typed = true

theorem refused_error {α : Type} {r : Refusal} (h : r.typed = true) :
    Refused (.error r : Except Refusal α) := ⟨r, rfl, h⟩

theorem Refused.bind {α β : Type} {x : Except Refusal α} {f : α → Except Refusal β}
    (hx : Fails (fun r => r.typed = true) x)
    (hf : ∀ a, x = .ok a → Refused (f a)) : Refused (x >>= f) := by
  cases x with
  | error r => exact ⟨r, rfl, hx r rfl⟩
  | ok a => exact hf a rfl

theorem Refused.first {α β : Type} {x : Except Refusal α} {f : α → Except Refusal β}
    (hx : Refused x) : Refused (x >>= f) := by
  obtain ⟨r, rfl, hr⟩ := hx
  exact ⟨r, rfl, hr⟩

theorem Refused.map {α β : Type} {x : Except Refusal α} (hx : Refused x) (f : α → β) : Refused (x.map f) := by
  obtain ⟨r, rfl, hr⟩ := hx
  exact ⟨r, rfl, hr⟩

/-- The holder that a reader is given, when its row is not orphaned. -/
theorem holder_some (hs : Reachable s) {env : Env} {pid norm : String}
    (hpid : platformId env.unicode pid = .ok norm) {b : Alias}
    (hb : HeldBy s norm b) (hvisible : ¬ Orphaned env b) :
      ∃ holder, canonical (liveEntities s) b.entityId = .ok holder ∧
      holderForPlatformId env s pid = .ok (some holder) := by
  obtain ⟨hmem, hi, hnorm⟩ := hb
  obtain ⟨hkind, hnone⟩ := indexed_iff.mp hi
  have hinv := platformInv_reachable hs
  obtain ⟨row, hrow, hid⟩ := List.mem_map.mp (hinv.housed b hmem)
  have hlive : row ∈ liveEntities s := mem_liveEntities.mpr ⟨hrow, hid ▸ hinv.homed b hmem hnone⟩
  obtain ⟨holder, hholder, -⟩ := canonical_total (mergeInv_reachable hs) hlive
  rw [hid] at hholder
  have hfind : (aliasesByNorm env s norm).find? (fun a => a.aliasKind = .platformId) = some b := by
    have hin : b ∈ aliasesByNorm env s norm := by
      refine mem_aliasesByNorm.mpr ⟨hmem, hnorm, hnone, ?_⟩
      rwa [← aliasVisible_trusted, Bool.not_eq_false] at hvisible
    cases hf : (aliasesByNorm env s norm).find? (fun a => a.aliasKind = .platformId) with
    | none => exact absurd (List.find?_eq_none.mp hf b hin) (by simpa using hkind)
    | some a =>
      obtain ⟨ha, hanorm, hanone, -⟩ := mem_aliasesByNorm.mp (List.mem_of_find?_eq_some hf)
      have hai := indexed_iff.mpr ⟨by simpa using List.find?_some hf, hanone⟩
      rw [hs.wellFormed.tables.index a ha b hmem hai hi (hanorm.trans hnorm.symm)]
  refine ⟨holder, hholder, ?_⟩
  rw [holderForPlatformId, bind_of_ok hpid, hfind]
  change canonical (liveEntities s) b.entityId >>= _ = _
  rw [bind_of_ok hholder]

theorem refused_addAlias (hs : Reachable s) (hu : c.env.unicode.Lowers) {id : EntityId}
    {display norm : String} {o : AliasOptions}
    (hadds : AddsPlatformId c display norm o) {b : Alias} (hb : HeldBy s norm b)
    (h : checkEntities s [some id, o.ownerEntityId] = .ok () → o.verified = true → ¬ Orphaned c.env b) :
    Refused (addAlias c id display o { store := s }) := by
  refine Refused.bind (fails_checkEntities rfl) fun _ hcheck => ?_
  obtain ⟨hkind, platform, hplatform, hne, htext⟩ := hadds
  rw [if_neg (fun hrelation => by rw [hkind] at hrelation; cases hrelation.1)]
  refine Refused.first ?_
  unfold aliasNorm
  rw [if_pos hkind, hplatform]
  dsimp only
  rw [if_neg hne, bind_of_ok htext]
  split
  · exact refused_error rfl
  · rename_i hverified
    obtain ⟨holder, -, hholder⟩ := holder_some hs (platformId_idem hu htext) hb (h hcheck (by simpa using hverified))
    rw [bind_of_ok hholder]
    exact refused_error rfl

theorem settles_attachOrCreate (hs : Reachable s) {pid name norm : String} {verified : Bool}
    (hpid : platformId c.env.unicode pid = .ok norm) {b : Alias} (hb : HeldBy s norm b) (hu : c.env.unicode.Lowers)
    (h : verified = true → ¬ Orphaned c.env b) : Settles c s (.attachOrCreate pid name verified) := by
  cases verified with
  | false =>
    left
    exact ⟨.unverifiedPlatformId, by rw [execute, attachOrCreate, bind_of_ok hpid]; rfl, rfl⟩
  | true =>
    right
    obtain ⟨holder, hcanonical, hholder⟩ := holder_some hs (platformId_idem hu hpid) hb (h rfl)
    refine ⟨pid, name, true, norm, b, holder, rfl, hpid, hb, hcanonical, ?_⟩
    rw [execute, attachOrCreate, bind_of_ok hpid, if_neg Bool.noConfusion, bind_of_ok hholder]

/-- The aliases a split moves are unretired, and no other row holds what such a row holds. -/
theorem refused_split (hs : Tables s) {id : EntityId} {aliasIds : List Nat} {noteIds : List NoteId}
    {name : String} {kind : Option Kind}
    {a b : Alias} (ha : a ∈ s.aliases) (hlisted : a.aliasId ∈ aliasIds) (hkind : a.aliasKind = .platformId)
    (hb : HeldBy s a.aliasNorm b) (hne : b.aliasId ≠ a.aliasId) :
    Refused (split c id aliasIds noteIds name kind { store := s }) := by
  refine Refused.bind (fails_getLiveEntity rfl) fun entity _ => ?_
  split
  · exact refused_error rfl
  · refine Refused.bind (fails_mapM fun _ _ => fails_getRow rfl) fun aliases haliases => ?_
    refine Refused.bind (fails_mapM fun _ _ => fails_getRow rfl) fun notes _ => ?_
    split
    · exact refused_error rfl
    · split
      · exact refused_error rfl
      · rename_i hforeign
        have hok := splitOk haliases hforeign
        have hids := getLiveAliases_ids haliases
        obtain ⟨r, hr, hrid⟩ := List.mem_map.mp
          (hids ▸ List.mem_eraseDups.mpr hlisted : a.aliasId ∈ aliases.map Alias.aliasId)
        obtain ⟨hread, -, hactive⟩ := hok.rows r hr
        obtain rfl := hs.alias_unique hread.mem ha hrid
        have hsame := hs.index b hb.1 r ha hb.2.1 (indexed_iff.mpr ⟨hkind, hactive⟩) hb.2.2
        exact absurd (congrArg Alias.aliasId hsame) hne

/-- An event whose aliases are held by others has later events that touch them. -/
theorem refused_undo (hs : Reachable s) {t : Event} (ht : t ∈ s.events) {p : Payload}
    (hp : t.payload = some p) {a b : Alias}
    (ha : a ∈ s.aliases) (hkind : a.aliasKind = .platformId) {ch : Change Nat (Option Rat)}
    (hch : ch ∈ aliasLog p.changes)
    (hid : ch.id = a.aliasId) (hb : HeldBy s a.aliasNorm b) (hcreated : b.aliasId ∉ p.created.aliases) :
    Refused (undoPlan c t.eventId s) := by
  have hwell := hs.wellFormed
  have hfind : s.events.find? (fun e => e.eventId = t.eventId) = some t := by
    cases hf : s.events.find? (fun e => e.eventId = t.eventId) with
    | none => exact absurd (List.find?_eq_none.mp hf t ht) (by simp)
    | some e =>
      have he : e.eventId = t.eventId := by simpa using List.find?_some hf
      rw [hwell.log.unique (List.mem_of_find?_eq_some hf) ht he]
  unfold undoPlan
  rw [hfind]
  dsimp only
  split
  · exact refused_error rfl
  · rename_i hop
    split
    · exact refused_error rfl
    · rename_i hstanding
      rw [hp]
      dsimp only
      split
      · exact refused_error rfl
      · split
        · exact refused_error rfl
        · rename_i hfree
          have hinv := platformInv_reachable hs
          have hstands : Standing s t p := ⟨ht, hop, hstanding, hp⟩
          obtain ⟨-, a0, ha0, ha0id, hrecorded⟩ := hinv.logged t p hstands ch hch
          obtain rfl := hwell.tables.alias_unique ha0 ha (ha0id.trans hid)
          obtain hin | hblocked := hinv.holder hwell.log hstands hrecorded hb.1 hb.2.1 hkind hb.2.2
          · exact absurd hin hcreated
          · exact absurd hblocked hfree

theorem settles (hs : Reachable s) (hu : c.env.unicode.Lowers) {op : Op} (h : ¬ AddsOrphaned c s op)
    (hconflict : Conflicts c s op) :
    Settles c s op := by
  have hrefused : ∀ {name : OpName} {body : Draft → Except Refusal Draft} {r : Returned},
      Refused (body { store := s }) → Refused (logged name body r s) := fun hbody => Refused.first hbody
  cases op with
  | addAlias id display o =>
    obtain ⟨norm, hadds, b, hb⟩ := hconflict
    refine .inl (hrefused (refused_addAlias hs hu hadds hb fun hcheck hverified horphaned => ?_))
    exact h ⟨hcheck, hverified, norm, hadds, b, hb.1, hb.2.1, hb.2.2, horphaned⟩
  | attachOrCreate pid name verified =>
    obtain ⟨norm, hpid, b, hb⟩ := hconflict
    refine settles_attachOrCreate hs hpid hb hu fun hverified horphaned => ?_
    exact h ⟨hverified, norm, hpid, b, hb.1, hb.2.1, hb.2.2, horphaned⟩
  | split id aliasIds noteIds name kind =>
    obtain ⟨a, ha, hlisted, hkind, b, hb, hne⟩ := hconflict
    exact .inl (hrefused (refused_split hs.wellFormed.tables ha hlisted hkind hb hne))
  | undo id =>
    obtain ⟨t, ht, rfl, p, hp, a, ha, hkind, ⟨ch, hch, hid, -⟩, b, hb, -, hcreated⟩ := hconflict
    exact .inl (((refused_undo hs ht hp ha hkind hch hid hb hcreated).first).map _)
  | createEntity name kind => exact hconflict.elim
  | retireAlias id => exact hconflict.elim
  | addNote text options => exact hconflict.elim
  | changeKind id kind => exact hconflict.elim
  | merge into fromEntity allow => exact hconflict.elim
  | overrideKey subject id scope owner => exact hconflict.elim

/-! ## The failing calls -/

theorem addAlias_orphaned (hu : c.env.unicode.Lowers) {d : Draft} (hs : Tables d.store)
    {id : EntityId} {display norm : String}
    {o : AliasOptions} (hcheck : checkEntities d.store [some id, o.ownerEntityId] = .ok ())
    (hverified : o.verified = true)
    (hadds : AddsPlatformId c display norm o) (horphaned : OrphanedHolder c.env d.store norm) :
    addAlias c id display o d = .error .aliasIndex := by
  obtain ⟨hkind, platform, hplatform, hne, htext⟩ := hadds
  have hholder := holder_orphaned hs (platformId_idem hu htext) horphaned
  have hnorm : aliasNorm c display o d.store = .ok norm := by
    rw [aliasNorm, if_pos hkind, hplatform]
    dsimp only
    rw [if_neg hne, bind_of_ok htext, if_neg (by rw [hverified]; exact Bool.noConfusion), bind_of_ok hholder]
  obtain ⟨b, hb, hi, hbnorm, -⟩ := horphaned
  have hlt := hs.aliasBelow b hb
  have hconflict : indexConflict d.store { aliasRow id norm display o with aliasId := d.store.nextAlias } = true :=
    indexConflict_held hkind hb hi (by dsimp only; omega) hbnorm
  rw [addAlias, bind_of_ok hcheck,
    if_neg (fun hrelation => by rw [hkind] at hrelation; cases hrelation.1), bind_of_ok hnorm,
    newAlias, insertAlias, hconflict]
  rfl

/-- Creating for an id with an orphaned holder breaks a constraint. -/
theorem createForPlatformId_orphaned (name : String) (hs : Reachable s) (hu : c.env.unicode.Lowers) {pid norm : String}
    (hpid : platformId c.env.unicode pid = .ok norm) (horphaned : OrphanedHolder c.env s norm) :
    createForPlatformId c norm name { store := s } = .error .constraint ∨
      createForPlatformId c norm name { store := s } = .error .aliasIndex := by
  have hwell := hs.wellFormed
  cases hmid : newEntity c name .person { store := s } with
  | error r =>
    left
    have hr : r = .constraint := by
      refine Fails.bind (P := fun e => e = .constraint) ?_ (fun _ _ => fails_ok _) r hmid
      unfold insertEntity
      split
      · exact fails_error rfl
      · exact fails_ok _
    rw [createForPlatformId, hmid, hr]
    rfl
  | ok mid =>
    right
    have hstart : Splitting s c.newEntity (mid.touchEntity (some c.newEntity)) :=
      splitting_start hwell.tables (platformInv_reachable hs).voided_listed hmid
    have hquiet := quiet_newEntity hmid
    obtain ⟨row, hrow, hid⟩ := List.mem_map.mp hstart.entity
    have hacts : Acts c.env anyWrites { store := s } mid := newEntity_acts hmid
    have hevents := (hacts.derived hwell.tables).events
    have hlive : LiveEntity mid.store row := ⟨hrow, by rw [hid, voided_congr hevents]; exact hstart.live⟩
    obtain ⟨r, hr⟩ := getLiveEntity_total hlive
    rw [hid] at hr
    rw [createForPlatformId, bind_of_ok hmid]
    have hadds : AddsPlatformId c (valueOf norm) norm
        { aliasKind := .platformId, platform := some (namespaceOf norm), verified := true } :=
      ⟨rfl, namespaceOf norm, rfl, platformId_parts hu hpid⟩
    refine addAlias_orphaned (d := mid) hu (hacts.sound (sound_start hwell.tables)).tables ?_ rfl hadds ?_
    · rw [checkEntities, bind_of_ok hr]
      rfl
    · obtain ⟨b, hb, hrest⟩ := horphaned
      exact ⟨b, hquiet.aliases.symm ▸ hb, hrest⟩

/-- An operation that adds an orphaned id is not guarded. -/
theorem not_guarded (hs : Reachable s) (hu : c.env.unicode.Lowers) {op : Op}
    (h : AddsOrphaned c s op) : ¬ Guarded c s op := by
  rintro ⟨hclear, hsettles⟩
  cases op with
  | addAlias id display o =>
    obtain ⟨hcheck, hverified, norm, hadds, horphaned⟩ := h
    refine hclear ?_
    change logged _ _ _ s = _
    rw [logged, addAlias_orphaned (d := { store := s }) hu hs.wellFormed.tables hcheck hverified hadds horphaned]
    rfl
  | attachOrCreate pid name verified =>
    obtain ⟨rfl, norm, hpid, b, hb, hi, hnorm, horphaned⟩ := h
    have hholder := holder_orphaned hs.wellFormed.tables (platformId_idem hu hpid) ⟨b, hb, hi, hnorm, horphaned⟩
    have hrun : execute c s (.attachOrCreate pid name true) =
        logged .createEntity (createForPlatformId c norm name) (.entity c.newEntity) s := by
      rw [execute, attachOrCreate, bind_of_ok hpid, if_neg Bool.noConfusion, bind_of_ok hholder]
    have hfails : ∃ r : Refusal, execute c s (.attachOrCreate pid name true) = .error r ∧ r.typed = false := by
      rw [hrun]
      cases createForPlatformId_orphaned name hs hu hpid ⟨b, hb, hi, hnorm, horphaned⟩ with
      | inl he => exact ⟨.constraint, by rw [logged, he]; rfl, rfl⟩
      | inr he => exact ⟨.aliasIndex, by rw [logged, he]; rfl, rfl⟩
    obtain ⟨r, hr, htyped⟩ := hfails
    rcases hsettles ⟨norm, hpid, b, hb, hi, hnorm⟩ with ⟨r', hr', htyped'⟩ | ⟨_, _, _, _, _, _, -, -, -, -, hok⟩
    · rw [hr] at hr'
      cases hr'
      rw [htyped] at htyped'
      cases htyped'
    · rw [hr] at hok
      cases hok
  | createEntity name kind => exact h
  | retireAlias id => exact h
  | addNote text options => exact h
  | changeKind id kind => exact h
  | merge into fromEntity allow => exact h
  | split id aliasIds noteIds name kind => exact h
  | overrideKey subject id scope owner => exact h
  | undo id => exact h

/-- In every store of a run at most one unretired alias has a platform id, and its
entity is not void. A call stays clear of the index of platform ids, and is
refused or attaches where it brings in one that is held, exactly when it adds none
whose holder is orphaned. -/
theorem platform_ids_exclusive (s : Store) (hs : Reachable s) :
    (∀ a ∈ s.aliases, ∀ b ∈ s.aliases, a.indexed = true → b.indexed = true → a.aliasNorm = b.aliasNorm → a = b) ∧
    (∀ a ∈ s.aliases, a.indexed = true →
      a.entityId ∈ s.entities.map Entity.entityId ∧ a.entityId ∉ voided Created.entities s) ∧
    ∀ (c : Context) (op : Op), c.env.unicode.Lowers → (Guarded c s op ↔ ¬ AddsOrphaned c s op) := by
  have hinv := platformInv_reachable hs
  refine ⟨hs.wellFormed.tables.index, fun a ha hi => ?_, fun c op hu => ?_⟩
  · exact ⟨hinv.housed a ha, hinv.homed a ha (indexed_iff.mp hi).2⟩
  · constructor
    · exact fun hguarded horphaned => not_guarded hs hu horphaned hguarded
    · exact fun h => ⟨clear_execute hs hu h, settles hs hu h⟩

theorem plainUnicode_lowers : plainUnicode.Lowers := ⟨fun _ => rfl, fun _ h => h, fun _ h => h⟩

/-- One message in the table, or none any more. -/
def messageContext (entity : EntityId) (ids : List Int) : Context :=
  { plainContext entity with env := { unicode := plainUnicode, messages := ids.map (fun id => { storeId := id }) } }

def platformAlias : AliasOptions :=
  { aliasKind := .platformId, platform := some "tg", verified := true, sourceStoreIds := [7] }

/-- Two entities, the first with a platform id of message 7. -/
def heldStore : Store := run (emptyScope 1 1 1)
  [(messageContext 1 [7], .createEntity "Ann" .person), (messageContext 2 [7], .createEntity "Bea" .person),
    (messageContext 3 [7], .addAlias 1 "ann" platformAlias)]

theorem platform_ids_exclusive_held : (∃ a ∈ heldStore.aliases, a.indexed = true) ∧
    Guarded (messageContext 3 [7]) heldStore (.addAlias 2 "ann" platformAlias) := by
  have hreach : Reachable heldStore := (Reachable.empty 1 1 1).run _
  refine ⟨by decide +kernel, ?_⟩
  refine ((platform_ids_exclusive heldStore hreach).2.2 (messageContext 3 [7]) _ plainUnicode_lowers).mpr ?_
  rintro ⟨-, -, norm, -, b, hb, -, -, horphaned⟩
  have hvisible : ∀ a ∈ heldStore.aliases, aliasVisible (messageContext 3 [7]).env trusted a = true := by decide +kernel
  rw [← aliasVisible_trusted, hvisible b hb] at horphaned
  cases horphaned

/-- When message 7 is gone the second entity gets the index instead of a refusal. -/
theorem platform_id_orphaned : Reachable heldStore ∧ (messageContext 3 []).env.unicode.Lowers ∧
    ReachesIndex (messageContext 3 []) heldStore (.addAlias 2 "ann" platformAlias) ∧
    ¬ Guarded (messageContext 3 []) heldStore (.addAlias 2 "ann" platformAlias) := by
  have hreaches : execute (messageContext 3 []) heldStore (.addAlias 2 "ann" platformAlias) =
      .error .aliasIndex := by decide +kernel
  exact ⟨(Reachable.empty 1 1 1).run _, plainUnicode_lowers, hreaches, fun hguarded => hguarded.1 hreaches⟩

end EntityStore
