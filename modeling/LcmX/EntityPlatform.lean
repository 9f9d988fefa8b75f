import LcmX.EntityMentions
import LcmX.EntityUndo

/-!
# Platform ids over whole runs

An undo is refused while a later event that stands touches what its target
touches. So the platform id of an unretired alias was last touched by the event
that made the alias, and the entity of the alias is not void.
-/
namespace EntityStore

open ChangeLog Fallible Draft

/-- An event that is no undo and has not been undone. -/
structure Standing (s : Store) (e : Event) (p : Payload) : Prop where
  mem : e ∈ s.events
  op : e.op ≠ .undo
  standing : e.eventId ∉ undone s
  payload : e.payload = some p

/-- The event that made the alias. -/
structure Makes (s : Store) (e : Event) (p : Payload) (a : Alias) : Prop where
  mem : e ∈ s.events
  op : e.op ≠ .undo
  payload : e.payload = some p
  created : a.aliasId ∈ p.created.aliases

/-- An alias that a standing event has retired: nothing in between touches its platform id. -/
structure Recorded (s : Store) (e : Event) (p : Payload) (a : Alias) : Prop where
  mentions : Mentions p a
  entity : a.entityId ∉ voided Created.entities s
  live : a.aliasId ∉ voided Created.aliases s
  before : ∀ e0 p0, Makes s e0 p0 a → e0.eventId < e.eventId
  clear : a.aliasKind = .platformId → ∀ f r, Standing s f r → f.eventId < e.eventId → ∀ e0 p0, Makes s e0 p0 a →
    e0.eventId < f.eventId → AliasTouch.norm a.aliasNorm ∉ r.touches.aliases

structure PlatformInv (s : Store) : Prop where
  below : ∀ e ∈ s.events, ∀ p, e.payload = some p → ∀ id ∈ p.created.aliases, id < s.nextAlias
  listed : ∀ e ∈ s.events, ∀ p, e.payload = some p → ∀ id ∈ p.created.entities, id ∈ s.entities.map Entity.entityId
  creator : ∀ a ∈ s.aliases, ∃ e p, Makes s e p a
  mentions : ∀ a ∈ s.aliases, ∀ e p, Makes s e p a → Mentions p a
  retired : ∀ a ∈ s.aliases, a.aliasId ∈ voided Created.aliases s → a.retiredAt ≠ none
  housed : ∀ a ∈ s.aliases, a.entityId ∈ s.entities.map Entity.entityId
  after : ∀ a ∈ s.aliases, ∀ t ∈ s.events, ∀ q, t.payload = some q → a.entityId ∈ q.created.entities →
    ∀ e p, Makes s e p a → t.eventId ≤ e.eventId
  homed : ∀ a ∈ s.aliases, a.retiredAt = none → a.entityId ∉ voided Created.entities s
  top : ∀ a ∈ s.aliases, a.indexed = true → ∀ e p, Makes s e p a → ∀ f r, Standing s f r → e.eventId < f.eventId →
    AliasTouch.norm a.aliasNorm ∉ r.touches.aliases
  logged : ∀ e p, Standing s e p → ∀ ch ∈ aliasLog p.changes, ch.before = none ∧ ∃ a ∈ s.aliases,
    a.aliasId = ch.id ∧ Recorded s e p a
  distinct : ∀ e p, Standing s e p → ∀ a ∈ s.aliases, ∀ b ∈ s.aliases, a.aliasKind = .platformId →
    b.aliasKind = .platformId →
    a.aliasNorm = b.aliasNorm → a.aliasId ∈ retiredIds p → b.aliasId ∈ retiredIds p → a = b

theorem indexed_iff {a : Alias} : a.indexed = true ↔ a.aliasKind = .platformId ∧ a.retiredAt = none := by
  simp [Alias.indexed]

variable {s : Store}

theorem PlatformInv.voided_listed (h : PlatformInv s) : ∀ id ∈ voided Created.entities s,
    id ∈ s.entities.map Entity.entityId := by
  intro id hid
  obtain ⟨e, he, -, p, hp, hin⟩ := mem_voided.mp hid
  exact h.listed e he p hp id hin

/-- The event that made an unretired alias stands. -/
theorem PlatformInv.standing (h : PlatformInv s) {a : Alias} (ha : a ∈ s.aliases) (hnone : a.retiredAt = none) :
    ∃ e p, Standing s e p ∧ Makes s e p a ∧ Mentions p a := by
  obtain ⟨e, p, hmakes⟩ := h.creator a ha
  refine ⟨e, p, ⟨hmakes.mem, hmakes.op, fun hundone => ?_, hmakes.payload⟩, hmakes, h.mentions a ha e p hmakes⟩
  exact h.retired a ha (mem_voided.mpr ⟨e, hmakes.mem, hundone, p, hmakes.payload, hmakes.created⟩) hnone

theorem Makes.same {e : Event} {p : Payload} {a b : Alias} (h : Makes s e p a)
    (hsame : SameAlias a b) : Makes s e p b :=
  ⟨h.mem, h.op, h.payload, hsame.aliasId ▸ h.created⟩

theorem platformInv_empty (nextAlias nextKey nextEvent : Nat) :
    PlatformInv (emptyScope nextAlias nextKey nextEvent) := by
  constructor
  all_goals simp [emptyScope]
  exact fun e p h => by cases h.mem

theorem PlatformInv.rebuild (h : PlatformInv s) (keys : List KeyRow) (nextKey : Nat) :
    PlatformInv { s with keys := keys, nextKey := nextKey } := by
  have hstanding : ∀ {e p}, Standing { s with keys := keys, nextKey := nextKey } e p → Standing s e p :=
    fun h => ⟨h.mem, h.op, h.standing, h.payload⟩
  have hmakes : ∀ {e p a}, Makes { s with keys := keys, nextKey := nextKey } e p a → Makes s e p a :=
    fun h => ⟨h.mem, h.op, h.payload, h.created⟩
  constructor
  case below => exact h.below
  case listed => exact h.listed
  case creator =>
    intro a ha
    obtain ⟨e, p, hm⟩ := h.creator a ha
    exact ⟨e, p, hm.mem, hm.op, hm.payload, hm.created⟩
  case mentions => exact fun a ha e p hm => h.mentions a ha e p (hmakes hm)
  case retired => exact h.retired
  case housed => exact h.housed
  case after => exact fun a ha t ht q hq hin e p hm => h.after a ha t ht q hq hin e p (hmakes hm)
  case homed => exact h.homed
  case top => exact fun a ha hi e p hm f r hf => h.top a ha hi e p (hmakes hm) f r (hstanding hf)
  case logged =>
    intro e p he ch hch
    obtain ⟨hbefore, a, ha, hid, hr⟩ := h.logged e p (hstanding he) ch hch
    exact ⟨hbefore, a, ha, hid, hr.mentions, hr.entity, hr.live, fun e0 p0 hm => hr.before e0 p0 (hmakes hm),
      fun hkind f r hf hlt e0 p0 hm => hr.clear hkind f r (hstanding hf) hlt e0 p0 (hmakes hm)⟩
  case distinct => exact fun e p he => h.distinct e p (hstanding he)

/-- The entities of the old store and those the payload lists are the entities of the draft. -/
theorem entities_derived {d : Draft} (hd : d.Derived s) {id : EntityId} :
    id ∈ d.store.entities.map Entity.entityId ↔
      id ∈ s.entities.map Entity.entityId ∨ id ∈ d.payload.created.entities := by
  have hkeys : d.store.entities.map Entity.entityId = s.entities.map Entity.entityId ++ d.payload.created.entities :=
    hd.entities.map_key
  rw [hkeys, List.mem_append]

/-! ## Commits -/

section Commit

variable {env : Env} {w : Writes} {d : Draft} {name : OpName}

/-- The store after a commit. -/
abbrev committed (name : OpName) (d : Draft) : Store := appendEvent name d.payload none d.store

theorem standing_commit (hd : d.Derived s) (hname : name ≠ .undo) {f : Event} {r : Payload}
    (h : Standing (committed name d) f r) : Standing s f r ∨ f.eventId = s.nextEvent ∧ r = d.payload := by
  have happ := appends_appendEvent hd name none
  have hstanding := h.standing
  rw [happ.undone_same hname] at hstanding
  rcases happ.mem.mp h.mem with hmem | rfl
  · exact .inl ⟨hmem, h.op, hstanding, h.payload⟩
  · exact .inr ⟨rfl, (Option.some.inj h.payload).symm⟩

variable {e : Event} {p : Payload} {a a0 : Alias}

theorem makes_commit (hd : d.Derived s) (h : Makes (committed name d) e p a) :
    Makes s e p a ∨ e.eventId = s.nextEvent ∧ p = d.payload ∧ a.aliasId ∈ d.payload.created.aliases := by
  have happ := appends_appendEvent hd name none
  rcases happ.mem.mp h.mem with hmem | rfl
  · exact .inl ⟨hmem, h.op, h.payload, h.created⟩
  · refine .inr ⟨rfl, (Option.some.inj h.payload).symm, ?_⟩
    rw [Option.some.inj h.payload]
    exact h.created

/-- The maker of a row of the old store is an old event. -/
theorem makes_old (hs : WellFormed s) (hd : d.Derived s) (hm : Mentioned s d) (ha0 : a0 ∈ s.aliases)
    (hsame : SameAlias a0 a) (h : Makes (committed name d) e p a) : Makes s e p a0 := by
  obtain hold | ⟨-, -, hin⟩ := makes_commit hd h
  · exact hold.same hsame.symm
  · have hbelow := hs.tables.aliasBelow a0 ha0
    have hfresh := (hm.fresh _ hin).1
    rw [hsame.aliasId] at hfresh
    omega

theorem makes_new (h : PlatformInv s) (hd : d.Derived s) (hm : Mentioned s d)
    (ha : a.aliasId ∈ d.payload.created.aliases)
    (hmakes : Makes (committed name d) e p a) : e.eventId = s.nextEvent ∧ p = d.payload := by
  obtain hold | ⟨he, hp, -⟩ := makes_commit hd hmakes
  · have hbelow := h.below e hold.mem p hold.payload _ hold.created
    have hfresh := (hm.fresh _ ha).1
    omega
  · exact ⟨he, hp⟩

/-- An unretired row of the old store is still there as it was, or has been retired. -/
theorem Mentioned.unretired (hm : Mentioned s d) (ha : a ∈ d.store.aliases)
    (hnot : a.aliasId ∉ d.payload.created.aliases)
    (hnone : a.retiredAt = none) : a ∈ s.aliases ∧ a.aliasId ∉ retiredIds d.payload := by
  obtain ⟨a0, ha0, -, ⟨rfl, hids⟩ | ⟨hretired, -⟩⟩ := hm.old a ha hnot
  · exact ⟨ha0, hids⟩
  · exact absurd hnone hretired

/-- The row of an old alias in the new store. -/
theorem Mentioned.origin (hm : Mentioned s d) (htables : Tables d.store) (ha0 : a0 ∈ s.aliases)
    (ha : a ∈ d.store.aliases) (hid : a0.aliasId = a.aliasId) : SameAlias a0 a := by
  obtain ⟨b, hb, hsame⟩ := hm.kept a0 ha0
  rw [htables.alias_unique ha hb (hid.symm.trans hsame.aliasId.symm)]
  exact hsame

/-- After a commit no later event touches the platform id of an unretired alias. -/
theorem PlatformInv.top_commit (h : PlatformInv s) (hs : WellFormed s) (hd : d.Derived s)
    (hm : Mentioned s d) (hname : name ≠ .undo)
    (hindex : Tables d.store) (ha : a ∈ d.store.aliases) (hi : a.indexed = true)
    (hmakes : Makes (committed name d) e p a) {f : Event} {r : Payload} (hf : Standing (committed name d) f r)
    (hlt : e.eventId < f.eventId) : AliasTouch.norm a.aliasNorm ∉ r.touches.aliases := by
  obtain ⟨hkind, hnone⟩ := indexed_iff.mp hi
  by_cases hin : a.aliasId ∈ d.payload.created.aliases
  · -- No event is later than the one that made the alias.
    have he := (makes_new h hd hm hin hmakes).1
    obtain hold | ⟨hf, -⟩ := standing_commit hd hname hf
    · have hbelow := hs.log.below f hold.mem
      omega
    · omega
  · obtain ⟨ha0, hnot⟩ := hm.unretired ha hin hnone
    have hmakes0 := makes_old hs hd hm ha0 (.refl a) hmakes
    obtain hold | ⟨-, rfl⟩ := standing_commit hd hname hf
    · exact h.top a ha0 hi e p hmakes0 f r hold hlt
    · intro htouched
      -- Who has this platform id in the new event is the alias itself.
      obtain ⟨b, hb, hbkind, hbnorm, hwhere⟩ := hm.norms _ htouched
      by_cases hbin : b.aliasId ∈ d.payload.created.aliases
      · have hbi := indexed_iff.mpr ⟨hbkind, (hm.made b hb hbin).1⟩
        rw [hindex.index b hb a ha hbi hi hbnorm] at hbin
        exact hin hbin
      · have hbids := hwhere.resolve_left hbin
        obtain ⟨ch, hch, hchid⟩ := List.mem_map.mp hbids
        obtain ⟨-, b0, hb0, hb0id, hb0none, -⟩ := hm.retired ch hch
        obtain ⟨b1, hb1, hsame, -⟩ := hm.old b hb hbin
        have hb01 : b0 = b1 := hs.tables.alias_unique hb0 hb1 (by rw [hb0id, hchid, hsame.aliasId])
        subst hb01
        have hb0i := indexed_iff.mpr ⟨hsame.aliasKind.symm.trans hbkind, hb0none⟩
        have heq := hs.tables.index b0 hb0 a ha0 hb0i hi (hsame.aliasNorm.symm.trans hbnorm)
        rw [← heq, ← hsame.aliasId] at hnot
        exact hnot hbids

/-- What was recorded stays recorded. -/
theorem Recorded.commit (hs : WellFormed s) (hd : d.Derived s) (hm : Mentioned s d) (hname : name ≠ .undo)
    (he : Standing s e p) (ha0 : a0 ∈ s.aliases) (hsame : SameAlias a0 a) (h : Recorded s e p a0) :
    Recorded (committed name d) e p a := by
  have happ := appends_appendEvent hd name none
  refine ⟨h.mentions.same hsame, ?_, ?_, fun e0 p0 hmakes => h.before e0 p0 (makes_old hs hd hm ha0 hsame hmakes), ?_⟩
  · rw [happ.voided_same hs.log hname, hsame.entityId]
    exact h.entity
  · rw [happ.voided_same hs.log hname, hsame.aliasId]
    exact h.live
  · intro hkind f r hf hlt e0 p0 hmakes hlt0
    rw [hsame.aliasNorm]
    obtain hold | ⟨hnext, -⟩ := standing_commit hd hname hf
    · exact h.clear (hsame.aliasKind.symm.trans hkind) f r hold hlt e0 p0 (makes_old hs hd hm ha0 hsame hmakes) hlt0
    · have hbelow := hs.log.below e he.mem
      omega

/-- The entity of an alias was made no later than the alias. -/
theorem PlatformInv.after_commit (h : PlatformInv s) (hs : WellFormed s) (hd : d.Derived s) (hm : Mentioned s d)
    (ha : a ∈ d.store.aliases) {t : Event} (ht : t ∈ (committed name d).events) {q : Payload} (hq : t.payload = some q)
    (hcreated : a.entityId ∈ q.created.entities) (hmakes : Makes (committed name d) e p a) : t.eventId ≤ e.eventId := by
  have happ := appends_appendEvent hd name none
  by_cases hin : a.aliasId ∈ d.payload.created.aliases
  · rw [(makes_new h hd hm hin hmakes).1]
    rcases happ.mem.mp ht with ht | rfl
    · exact (hs.log.below t ht).le
    · exact le_rfl
  · obtain ⟨a0, ha0, hsame, -⟩ := hm.old a ha hin
    rw [hsame.entityId] at hcreated
    rcases happ.mem.mp ht with ht | rfl
    · exact h.after a0 ha0 t ht q hq hcreated e p (makes_old hs hd hm ha0 hsame hmakes)
    · cases hq
      exact absurd hcreated (hd.created_fresh hs.tables (h.housed a0 ha0))

/-- What the new event retires is recorded. -/
theorem PlatformInv.recorded_new (h : PlatformInv s) (hs : WellFormed s) (hd : d.Derived s) (hm : Mentioned s d)
    (hname : name ≠ .undo) (he : e.eventId = s.nextEvent) (ha0 : a0 ∈ s.aliases) (hsame : SameAlias a0 a)
    (hnone : a0.retiredAt = none) (hmentions : Mentions d.payload a0) (hlive : a0.aliasId ∉ voided Created.aliases s) :
    Recorded (committed name d) e d.payload a := by
  have happ := appends_appendEvent hd name none
  refine ⟨hmentions.same hsame, ?_, ?_, fun e0 p0 hmakes => ?_, ?_⟩
  · rw [happ.voided_same hs.log hname, hsame.entityId]
    exact h.homed a0 ha0 hnone
  · rw [happ.voided_same hs.log hname, hsame.aliasId]
    exact hlive
  · have hbelow := hs.log.below e0 (makes_old hs hd hm ha0 hsame hmakes).mem
    omega
  · intro hkind f r hf hlt e0 p0 hmakes hlt0
    rw [hsame.aliasNorm]
    obtain hfold | ⟨hnext, -⟩ := standing_commit hd hname hf
    · have hi := indexed_iff.mpr ⟨hsame.aliasKind.symm.trans hkind, hnone⟩
      exact h.top a0 ha0 hi e0 p0 (makes_old hs hd hm ha0 hsame hmakes) f r hfold hlt0
    · omega

/-- Two retired rows of one platform id are one row. -/
theorem PlatformInv.distinct_commit (h : PlatformInv s) (hs : WellFormed s) (hd : d.Derived s) (hm : Mentioned s d)
    (hname : name ≠ .undo) (hindex : Tables d.store) (he : Standing (committed name d) e p) {b : Alias}
    (ha : a ∈ d.store.aliases) (hb : b ∈ d.store.aliases) (hak : a.aliasKind = .platformId)
    (hbk : b.aliasKind = .platformId)
    (hnorm : a.aliasNorm = b.aliasNorm) (haids : a.aliasId ∈ retiredIds p)
    (hbids : b.aliasId ∈ retiredIds p) : a = b := by
  apply hindex.alias_unique ha hb
  obtain hold | ⟨-, rfl⟩ := standing_commit hd hname he
  · have hrow : ∀ x ∈ d.store.aliases, x.aliasId ∈ retiredIds p → ∃ x0 ∈ s.aliases, SameAlias x0 x := by
      intro x hx hxids
      obtain ⟨ch, hch, hchid⟩ := List.mem_map.mp hxids
      obtain ⟨-, x0, hx0, hid, -⟩ := h.logged e p hold ch hch
      exact ⟨x0, hx0, hm.origin hindex hx0 hx (by rw [hid, hchid])⟩
    obtain ⟨a0, ha0, hasame⟩ := hrow a ha haids
    obtain ⟨b0, hb0, hbsame⟩ := hrow b hb hbids
    have heq := h.distinct e p hold a0 ha0 b0 hb0 (hasame.aliasKind.symm.trans hak) (hbsame.aliasKind.symm.trans hbk)
      (by rw [← hasame.aliasNorm, ← hbsame.aliasNorm, hnorm]) (hasame.aliasId ▸ haids) (hbsame.aliasId ▸ hbids)
    rw [hasame.aliasId, hbsame.aliasId, heq]
  · have hrow : ∀ x ∈ d.store.aliases, x.aliasId ∈ retiredIds d.payload →
        ∃ x0 ∈ s.aliases, SameAlias x0 x ∧ x0.retiredAt = none := by
      intro x hx hxids
      obtain ⟨ch, hch, hchid⟩ := List.mem_map.mp hxids
      obtain ⟨-, x0, hx0, hid, hnone, -⟩ := hm.retired ch hch
      exact ⟨x0, hx0, hm.origin hindex hx0 hx (by rw [hid, hchid]), hnone⟩
    obtain ⟨a0, ha0, hasame, hanone⟩ := hrow a ha haids
    obtain ⟨b0, hb0, hbsame, hbnone⟩ := hrow b hb hbids
    have heq := hs.tables.index a0 ha0 b0 hb0 (indexed_iff.mpr ⟨hasame.aliasKind.symm.trans hak, hanone⟩)
      (indexed_iff.mpr ⟨hbsame.aliasKind.symm.trans hbk, hbnone⟩)
        (by rw [← hasame.aliasNorm, ← hbsame.aliasNorm, hnorm])
    rw [hasame.aliasId, hbsame.aliasId, heq]

/-- A commit keeps the invariant. -/
theorem PlatformInv.commit (h : PlatformInv s) (hs : WellFormed s)
    (hacts : Acts env w { store := s } d) (hm : Mentioned s d)
    (hname : name ≠ .undo) : PlatformInv (committed name d) := by
  have hd := hacts.derived hs.tables
  have hindex := (hacts.sound (sound_start hs.tables)).tables
  have happ := appends_appendEvent hd name none
  have hvoided : ∀ {α : Type} {ids : Created → List α} (x : α), x ∈ voided ids (committed name d) ↔ x ∈ voided ids s :=
    fun x => happ.voided_same hs.log hname x
  constructor
  case below =>
    intro e he p hp id hid
    rcases happ.mem.mp he with he | rfl
    · exact lt_of_lt_of_le (h.below e he p hp id hid) hm.grows
    · cases hp
      exact (hm.fresh id hid).2
  case listed =>
    intro e he p hp id hid
    apply (entities_derived hd).mpr
    rcases happ.mem.mp he with he | rfl
    · exact .inl (h.listed e he p hp id hid)
    · cases hp
      exact .inr hid
  case creator =>
    intro a ha
    by_cases hin : a.aliasId ∈ d.payload.created.aliases
    · exact ⟨_, d.payload, happ.mem.mpr (.inr rfl), hname, rfl, hin⟩
    · obtain ⟨a0, ha0, hsame, -⟩ := hm.old a ha hin
      obtain ⟨e, p, hmakes⟩ := h.creator a0 ha0
      exact ⟨e, p, happ.mem.mpr (.inl hmakes.mem), hmakes.op, hmakes.payload, hsame.aliasId ▸ hmakes.created⟩
  case mentions =>
    intro a ha e p hmakes
    by_cases hin : a.aliasId ∈ d.payload.created.aliases
    · rw [(makes_new h hd hm hin hmakes).2]
      exact (hm.made a ha hin).2.1
    · obtain ⟨a0, ha0, hsame, -⟩ := hm.old a ha hin
      exact (h.mentions a0 ha0 e p (makes_old hs hd hm ha0 hsame hmakes)).same hsame
  case retired =>
    intro a ha hvoid
    rw [hvoided] at hvoid
    by_cases hin : a.aliasId ∈ d.payload.created.aliases
    · obtain ⟨e, he, -, p, hp, hcreated⟩ := mem_voided.mp hvoid
      have hbelow := h.below e he p hp _ hcreated
      have hfresh := (hm.fresh _ hin).1
      omega
    · intro hnone
      exact h.retired a (hm.unretired ha hin hnone).1 hvoid hnone
  case housed =>
    intro a ha
    by_cases hin : a.aliasId ∈ d.payload.created.aliases
    · exact (hm.made a ha hin).2.2.1
    · obtain ⟨a0, ha0, hsame, -⟩ := hm.old a ha hin
      rw [hsame.entityId]
      exact (entities_derived hd).mpr (.inl (h.housed a0 ha0))
  case after => exact fun a ha t ht q hq hcreated e p hmakes => h.after_commit hs hd hm ha ht hq hcreated hmakes
  case homed =>
    intro a ha hnone
    rw [hvoided]
    by_cases hin : a.aliasId ∈ d.payload.created.aliases
    · exact (hm.made a ha hin).2.2.2
    · exact h.homed a (hm.unretired ha hin hnone).1 hnone
  case top => exact fun a ha hi e p hmakes f r hf hlt => h.top_commit hs hd hm hname hindex ha hi hmakes hf hlt
  case logged =>
    intro e p he ch hch
    obtain hold | ⟨hid, rfl⟩ := standing_commit hd hname he
    · obtain ⟨hbefore, a0, ha0, hid, hrecorded⟩ := h.logged e p hold ch hch
      obtain ⟨a, ha, hsame⟩ := hm.kept a0 ha0
      exact ⟨hbefore, a, ha, hsame.aliasId.trans hid, hrecorded.commit hs hd hm hname hold ha0 hsame⟩
    · obtain ⟨hbefore, a0, ha0, haid, hnone, hmentions, hlive⟩ := hm.retired ch hch
      obtain ⟨a, ha, hsame⟩ := hm.kept a0 ha0
      exact ⟨hbefore, a, ha, hsame.aliasId.trans haid,
        h.recorded_new hs hd hm hname hid ha0 hsame hnone hmentions hlive⟩
  case distinct =>
    exact fun e p he a ha b hb hak hbk hnorm haids hbids =>
      h.distinct_commit hs hd hm hname hindex he ha hb hak hbk hnorm haids hbids

end Commit

/-! ## Undo -/

theorem meet_entity {a b : Touches} {x : EntityId} (ha : x ∈ a.entities) (hb : x ∈ b.entities) : a.meet b = true := by
  have hany : a.entities.any (fun x => x ∈ b.entities) = true := List.any_eq_true.mpr ⟨x, ha, by simpa using hb⟩
  simp [Touches.meet, hany]

theorem meet_alias {a b : Touches} {x : AliasTouch} (ha : x ∈ a.aliases) (hb : x ∈ b.aliases) : a.meet b = true := by
  have hany : a.aliases.any (fun x => x ∈ b.aliases) = true := List.any_eq_true.mpr ⟨x, ha, by simpa using hb⟩
  simp [Touches.meet, hany]

theorem Standing.blocks {f : Event} {r : Payload} (h : Standing s f r) {id : Nat}
    {touches : Touches} (hlt : id < f.eventId)
    (hmeet : touches.meet r.touches = true) : blockers s id touches ≠ [] := by
  intro hnil
  have hin := mem_blockers h.mem hlt h.op h.standing h.payload hmeet
  rw [hnil] at hin
  cases hin

/-- No alias but its own stands in the way of what an event has retired. -/
theorem PlatformInv.holder (h : PlatformInv s) (hlog : EventLog s) {t : Event} {p : Payload}
    (ht : Standing s t p) {a b : Alias}
    (ha : Recorded s t p a) (hb : b ∈ s.aliases) (hi : b.indexed = true) (hkind : a.aliasKind = .platformId)
    (hnorm : b.aliasNorm = a.aliasNorm) : b.aliasId ∈ p.created.aliases ∨ blockers s t.eventId p.touches ≠ [] := by
  obtain ⟨hbkind, hbnone⟩ := indexed_iff.mp hi
  obtain ⟨e, q, he, hmakes, hmentions⟩ := h.standing hb hbnone
  have htouched : AliasTouch.norm b.aliasNorm ∈ p.touches.aliases := hnorm ▸ ha.mentions.norm hkind
  rcases Nat.lt_trichotomy e.eventId t.eventId with hlt | heq | hgt
  · exact absurd htouched (h.top b hb hi e q hmakes t p ht hlt)
  · left
    have hpayload := hmakes.payload
    rw [hlog.unique he.mem ht.mem heq, ht.payload] at hpayload
    cases hpayload
    exact hmakes.created
  · exact .inr (he.blocks hgt (meet_alias htouched (hmentions.norm hbkind)))

section Undo

variable {c : Context} {id : Nat} {t : Event} {p : Payload} {keys : List Nat} {changes : List FieldChange} {d : Draft}

theorem UndoOk.toStanding (h : UndoOk c id s t p) : Standing s t p := ⟨h.mem, h.op, h.eventId ▸ h.standing, h.payload⟩

/-- An undo that has retired what its target made: each row is one of the store, unretired when the
target had retired it or when it was and the target had not made it. -/
def Rewinding (s : Store) (p : Payload) (d : Draft) : Prop := ∀ b ∈ d.store.aliases, ∃ b0 ∈ s.aliases, SameAlias b0 b ∧
  (b.retiredAt = none → b0.aliasId ∈ retiredIds p ∨ b0.retiredAt = none ∧ b0.aliasId ∉ p.created.aliases)

theorem rewinding_retired {p : Payload}
    (h : p.created.aliases.foldlM (fun d id => projectAlias c id .now d) { store := s } = .ok d) :
    Rewinding s p d := by
  obtain ⟨-, -, ws, hids, hws, haliases⟩ := retire_tables _ h
  intro b hb
  rw [haliases] at hb
  rcases Column.mem_writeAll aliasColumn hb with ⟨hb, hnot⟩ | ⟨r, hr, v, hv, -, rfl⟩
  · rw [hids] at hnot
    exact ⟨b, hb, .refl b, fun hnone => .inr ⟨hnone, hnot⟩⟩
  · exact ⟨r, hr, sameAlias_set _ r, fun hnone => absurd hnone (hws v hv)⟩

theorem Rewinding.same {p : Payload} {d' : Draft} (h : Rewinding s p d)
    (haliases : d'.store.aliases = d.store.aliases) :
    Rewinding s p d' := by
  rw [Rewinding, haliases]
  exact h

/-- A write back keeps the rows. -/
theorem Rewinding.restore {p : Payload} {ch : FieldChange} {d' : Draft} (h : Rewinding s p d)
    (hch : ∀ x, ch = .aliasRow x → x ∈ aliasLog p.changes)
    (hrun : EntityStore.restore c d ch = .ok d') : Rewinding s p d' := by
  cases ch with
  | entity x => exact h.same (quiet_projectEntity hrun).aliases
  | note x => exact h.same (quiet_projectNote hrun).aliases
  | key x => exact h.same (quiet_projectKey hrun).aliases
  | aliasRow x =>
    obtain ⟨row, -, hid, hsame⟩ := projectAlias_same hrun
    have haliases : d'.store.aliases = aliasColumn.write row.aliasId x.before d.store.aliases := by
      rw [hsame.store]
      rfl
    intro b hb
    rw [haliases] at hb
    rcases (Column.mem_write aliasColumn).mp hb with ⟨hb, -⟩ | ⟨r, hr, hk, rfl⟩
    · exact h b hb
    · obtain ⟨b0, hb0, hb0same, -⟩ := h r hr
      refine ⟨b0, hb0, hb0same.trans (sameAlias_set _ r), fun _ => .inl ?_⟩
      have hb0id : b0.aliasId = x.id := hb0same.aliasId.symm.trans (hk.trans hid)
      rw [hb0id]
      exact List.mem_map_of_mem (hch x rfl)

theorem Rewinding.keyRows {p : Payload} {ids : List Nat} {d' : Draft} (h : Rewinding s p d)
    (hrun : ids.foldlM (fun d id => projectKey c id .now d) d = .ok d') : Rewinding s p d' :=
  foldlM_invariant (P := Rewinding s p) (fun _ _ _ _ ha hb => ha.same (quiet_projectKey hb).aliases) h hrun

/-- The aliases that are written back are those the target had retired. -/
theorem inverse_logged (hsafe : safeChanges c.env s keys p.changes = .ok changes) {ch : FieldChange}
    (hch : ch ∈ inverseOrder changes) :
    ∀ x, ch = .aliasRow x → x ∈ aliasLog p.changes := by
  rintro x rfl
  rw [← (safeChanges_logs _ hsafe).2.1]
  exact mem_aliasLog (mem_inverseOrder hch)

theorem rewinding_undone (hsafe : safeChanges c.env s keys p.changes = .ok changes) {latest : Option KeyRow}
    (hbody : undoBody c latest { p.created with keys := keys } changes s = .ok d) : Rewinding s p d := by
  simp only [undoBody, inverse, bind_ok] at hbody
  obtain ⟨inverted, ⟨retired, hretired, mid, hmid, hrestored⟩, hbody⟩ := hbody
  have hinverted : Rewinding s p inverted := by
    refine foldlM_invariant (P := Rewinding s p) (fun ch hch _ _ ha hb => ?_)
      (Rewinding.keyRows (rewinding_retired hretired) hmid) hrestored
    exact ha.restore (inverse_logged hsafe hch) hb
  exact hinverted.same (refresh_same hbody).aliases

theorem undone_kept (hd : d.Derived s) {a0 : Alias} (ha0 : a0 ∈ s.aliases)
    (hrow : ∀ a ∈ d.store.aliases, ∃ x ∈ s.aliases, SameAlias x a) (hs : Tables s) :
      ∃ a ∈ d.store.aliases, SameAlias a0 a := by
  have hkeys : d.store.aliases.map Alias.aliasId = s.aliases.map Alias.aliasId ++
      d.payload.created.aliases := hd.aliases.map_key
  have hin : a0.aliasId ∈ d.store.aliases.map Alias.aliasId := by
    rw [hkeys]
    exact List.mem_append_left _ (List.mem_map_of_mem ha0)
  obtain ⟨a, ha, hid⟩ := List.mem_map.mp hin
  obtain ⟨x, hx, hsame⟩ := hrow a ha
  rw [hs.alias_unique ha0 hx (by rw [← hid, hsame.aliasId])]
  exact ⟨a, ha, hsame⟩

theorem standing_undo (hd : d.Derived s) (hok : UndoOk c id s t p) {f : Event} {r : Payload}
    (h : Standing (appendEvent .undo d.payload (some id) d.store) f r) : Standing s f r ∧ f.eventId ≠ t.eventId := by
  have happ := appends_appendEvent hd .undo (some id)
  have hstanding := h.standing
  rw [happ.undone_undo rfl rfl, not_or] at hstanding
  rcases happ.mem.mp h.mem with hmem | rfl
  · exact ⟨⟨hmem, h.op, hstanding.1, h.payload⟩, hok.eventId ▸ hstanding.2⟩
  · exact absurd rfl h.op

theorem makes_undo (hd : d.Derived s) {e : Event} {q : Payload} {a : Alias}
    (h : Makes (appendEvent .undo d.payload (some id) d.store) e q a) : Makes s e q a := by
  have happ := appends_appendEvent hd .undo (some id)
  rcases happ.mem.mp h.mem with hmem | rfl
  · exact ⟨hmem, h.op, h.payload, h.created⟩
  · exact absurd rfl h.op

/-- The entity of an alias that was made or retired after the target, and stands, is not one the target made. -/
theorem UndoOk.entity_kept (hok : UndoOk c id s t p) (hmerge : MergeInv s) {f : Event} {r : Payload}
    (hf : Standing s f r)
    (hlt : t.eventId < f.eventId) {x : EntityId} (hx : x ∈ r.touches.entities) : x ∉ p.created.entities := by
  intro hcreated
  exact hf.blocks (hok.eventId ▸ hlt) (meet_entity (hmerge.touched t hok.mem p hok.payload hcreated) hx) hok.free

theorem Recorded.undo (h : PlatformInv s) (hmerge : MergeInv s) (hlog : EventLog s)
    (hd : d.Derived s) (hok : UndoOk c id s t p)
    {e : Event} {q : Payload} (he : Standing s e q) {a0 a : Alias} (ha0 : a0 ∈ s.aliases)
    (hsame : SameAlias a0 a) (hrecorded : Recorded s e q a0) :
    Recorded (appendEvent .undo d.payload (some id) d.store) e q a := by
  have happ := appends_appendEvent hd .undo (some id)
  have htarget : (⟨s.nextEvent, .undo, some d.payload, some id⟩ : Event).targetEventId =
      some t.eventId := by rw [hok.eventId]
  obtain ⟨maker, made, hmaker⟩ := h.creator a0 ha0
  refine ⟨hrecorded.mentions.same hsame, ?_, ?_, fun e0 p0 hmakes => ?_, ?_⟩
  · rw [happ.voided_undo hlog rfl htarget hok.mem hok.payload, not_or, hsame.entityId]
    refine ⟨hrecorded.entity, fun hcreated => ?_⟩
    have hle := h.after a0 ha0 t hok.mem p hok.payload hcreated maker made hmaker
    have hlt := hrecorded.before maker made hmaker
    exact hok.entity_kept hmerge he (by omega) hrecorded.mentions.entity hcreated
  · rw [happ.voided_undo hlog rfl htarget hok.mem hok.payload, not_or, hsame.aliasId]
    refine ⟨hrecorded.live, fun hcreated => ?_⟩
    -- The event touches the alias that the target made.
    have hmakes : Makes s t p a0 := ⟨hok.mem, hok.op, hok.payload, hcreated⟩
    have hlt := hrecorded.before t p hmakes
    exact he.blocks (hok.eventId ▸ hlt) (meet_alias (h.mentions a0 ha0 t p hmakes).id hrecorded.mentions.id) hok.free
  · exact hrecorded.before e0 p0 ((makes_undo hd hmakes).same hsame.symm)
  · intro hkind f r hf hlt e0 p0 hmakes hlt0
    rw [hsame.aliasNorm]
    exact hrecorded.clear (hsame.aliasKind.symm.trans hkind) f r (standing_undo hd hok hf).1 hlt e0 p0
      ((makes_undo hd hmakes).same hsame.symm) hlt0

/-- What the target has retired is recorded with it. -/
theorem PlatformInv.restored (h : PlatformInv s) (hs : WellFormed s) (hok : UndoOk c id s t p)
    {a0 : Alias} (ha0 : a0 ∈ s.aliases)
    (hin : a0.aliasId ∈ retiredIds p) : Recorded s t p a0 := by
  obtain ⟨ch, hch, hchid⟩ := List.mem_map.mp hin
  obtain ⟨-, x, hx, hid, hrecorded⟩ := h.logged t p hok.toStanding ch hch
  rwa [hs.tables.alias_unique ha0 hx (by rw [hid, hchid])]

/-- What is unretired after the undo is not void, and its entity is not one the target made. -/
theorem PlatformInv.kept_undo (h : PlatformInv s) (hmerge : MergeInv s) (hs : WellFormed s) (hok : UndoOk c id s t p)
    {a0 : Alias} (ha0 : a0 ∈ s.aliases)
    (hstate : a0.aliasId ∈ retiredIds p ∨ a0.retiredAt = none ∧ a0.aliasId ∉ p.created.aliases) :
    (a0.aliasId ∉ voided Created.aliases s ∧ a0.aliasId ∉ p.created.aliases) ∧
      a0.entityId ∉ voided Created.entities s ∧ a0.entityId ∉ p.created.entities := by
  obtain ⟨maker, made, hmaker⟩ := h.creator a0 ha0
  obtain hin | ⟨hnone, hnot⟩ := hstate
  · have hrecorded := h.restored hs hok ha0 hin
    refine ⟨⟨hrecorded.live, fun hcreated => ?_⟩, hrecorded.entity, fun hcreated => ?_⟩
    · exact absurd (hrecorded.before t p ⟨hok.mem, hok.op, hok.payload, hcreated⟩) (Nat.lt_irrefl _)
    · have hle := h.after a0 ha0 t hok.mem p hok.payload hcreated maker made hmaker
      have hlt := hrecorded.before maker made hmaker
      omega
  · refine ⟨⟨fun hvoid => h.retired a0 ha0 hvoid hnone, hnot⟩, h.homed a0 ha0 hnone, fun hcreated => ?_⟩
    obtain ⟨e, q, he, hmakes, hmentions⟩ := h.standing ha0 hnone
    have hle := h.after a0 ha0 t hok.mem p hok.payload hcreated e q hmakes
    by_cases heq : e.eventId = t.eventId
    · have hpayload := hmakes.payload
      rw [hs.log.unique hmakes.mem hok.mem heq, hok.payload] at hpayload
      cases hpayload
      exact hnot hmakes.created
    · exact hok.entity_kept hmerge he (by omega) hmentions.entity hcreated

/-- No event that stands after the undo and is later than the maker touches the platform id. -/
theorem PlatformInv.top_undo (h : PlatformInv s) (hs : WellFormed s) (hok : UndoOk c id s t p)
    {a0 : Alias} (ha0 : a0 ∈ s.aliases)
    (hkind : a0.aliasKind = .platformId) (hstate : a0.aliasId ∈ retiredIds p ∨ a0.retiredAt = none)
    {e f : Event} {q r : Payload}
    (hmakes : Makes s e q a0) (hf : Standing s f r) (hne : f.eventId ≠ t.eventId) (hlt : e.eventId < f.eventId) :
    AliasTouch.norm a0.aliasNorm ∉ r.touches.aliases := by
  obtain hin | hnone := hstate
  · have hrecorded := h.restored hs hok ha0 hin
    rcases Nat.lt_or_gt_of_ne hne with hbefore | hafter
    · exact hrecorded.clear hkind f r hf hbefore e q hmakes hlt
    · intro htouched
      exact hf.blocks (hok.eventId ▸ hafter) (meet_alias (hrecorded.mentions.norm hkind) htouched) hok.free
  · exact h.top a0 ha0 (indexed_iff.mpr ⟨hkind, hnone⟩) e q hmakes f r hf hlt

/-- An undo that goes through keeps the invariant. -/
theorem PlatformInv.undo (h : PlatformInv s) (hmerge : MergeInv s) (hs : WellFormed s) {s' : Store}
    (hundo : EntityStore.undo c id s = .ok s') : PlatformInv s' := by
  obtain ⟨t, p, keys, changes, d, hok, hsafe, hbody, rfl⟩ := undo_ok hundo
  have hacts := undoBody_acts hbody
  have hd := hacts.derived hs.tables
  have hindex := (hacts.sound (sound_start hs.tables)).tables
  have happ := appends_appendEvent hd .undo (some id)
  have htarget : (⟨s.nextEvent, .undo, some d.payload, some id⟩ : Event).targetEventId =
      some t.eventId := by rw [hok.eventId]
  have hvoided : ∀ {α : Type} {ids : Created → List α} (x : α),
      x ∈ voided ids (appendEvent .undo d.payload (some id) d.store) ↔ x ∈ voided ids s ∨ x ∈ ids p.created :=
    fun x => happ.voided_undo hs.log rfl htarget hok.mem hok.payload x
  have hrow := fun a (ha : a ∈ d.store.aliases) => rewinding_undone hsafe hbody a ha
  constructor
  case below =>
    intro e he q hq x hx
    rcases happ.mem.mp he with he | rfl
    · exact lt_of_lt_of_le (h.below e he q hq x hx) hacts.nextAlias_le
    · cases hq
      have hkeys : d.store.aliases.map Alias.aliasId = s.aliases.map Alias.aliasId ++
          d.payload.created.aliases := hd.aliases.map_key
      obtain ⟨a, ha, rfl⟩ := List.mem_map.mp
        (hkeys ▸ List.mem_append_right _ hx : x ∈ d.store.aliases.map Alias.aliasId)
      exact hindex.aliasBelow a ha
  case listed =>
    intro e he q hq x hx
    apply (entities_derived hd).mpr
    rcases happ.mem.mp he with he | rfl
    · exact .inl (h.listed e he q hq x hx)
    · cases hq
      exact .inr hx
  case creator =>
    intro a ha
    obtain ⟨a0, ha0, hsame, -⟩ := hrow a ha
    obtain ⟨e, q, hmakes⟩ := h.creator a0 ha0
    exact ⟨e, q, happ.mem.mpr (.inl hmakes.mem), hmakes.op, hmakes.payload, hsame.aliasId ▸ hmakes.created⟩
  case mentions =>
    intro a ha e q hmakes
    obtain ⟨a0, ha0, hsame, -⟩ := hrow a ha
    exact (h.mentions a0 ha0 e q ((makes_undo hd hmakes).same hsame.symm)).same hsame
  case retired =>
    intro a ha hvoid hnone
    obtain ⟨a0, ha0, hsame, hstate⟩ := hrow a ha
    obtain ⟨⟨hlive, hnot⟩, -⟩ := h.kept_undo hmerge hs hok ha0 (hstate hnone)
    rw [hvoided, hsame.aliasId] at hvoid
    exact hvoid.elim hlive hnot
  case housed =>
    intro a ha
    obtain ⟨a0, ha0, hsame, -⟩ := hrow a ha
    rw [hsame.entityId]
    exact (entities_derived hd).mpr (.inl (h.housed a0 ha0))
  case after =>
    intro a ha f hf q hq hcreated e r hmakes
    obtain ⟨a0, ha0, hsame, -⟩ := hrow a ha
    rw [hsame.entityId] at hcreated
    rcases happ.mem.mp hf with hf | rfl
    · exact h.after a0 ha0 f hf q hq hcreated e r ((makes_undo hd hmakes).same hsame.symm)
    · cases hq
      exact absurd hcreated (hd.created_fresh hs.tables (h.housed a0 ha0))
  case homed =>
    intro a ha hnone
    obtain ⟨a0, ha0, hsame, hstate⟩ := hrow a ha
    rw [hvoided, not_or, hsame.entityId]
    exact (h.kept_undo hmerge hs hok ha0 (hstate hnone)).2
  case top =>
    intro a ha hi e q hmakes f r hf hlt
    obtain ⟨a0, ha0, hsame, hstate⟩ := hrow a ha
    obtain ⟨hkind, hnone⟩ := indexed_iff.mp hi
    obtain ⟨hf, hne⟩ := standing_undo hd hok hf
    rw [hsame.aliasNorm]
    exact h.top_undo hs hok ha0 (hsame.aliasKind.symm.trans hkind) ((hstate hnone).imp_right And.left)
      ((makes_undo hd hmakes).same hsame.symm) hf hne hlt
  case logged =>
    intro e q he ch hch
    obtain ⟨he, -⟩ := standing_undo hd hok he
    obtain ⟨hbefore, a0, ha0, hid, hrecorded⟩ := h.logged e q he ch hch
    obtain ⟨a, ha, hsame⟩ := undone_kept hd ha0 (fun a ha => (hrow a ha).imp fun _ hx => ⟨hx.1, hx.2.1⟩) hs.tables
    exact ⟨hbefore, a, ha, hsame.aliasId.trans hid, hrecorded.undo h hmerge hs.log hd hok he ha0 hsame⟩
  case distinct =>
    intro e q he a ha b hb hak hbk hnorm haids hbids
    obtain ⟨he, -⟩ := standing_undo hd hok he
    obtain ⟨a0, ha0, hasame, -⟩ := hrow a ha
    obtain ⟨b0, hb0, hbsame, -⟩ := hrow b hb
    have heq := h.distinct e q he a0 ha0 b0 hb0 (hasame.aliasKind.symm.trans hak) (hbsame.aliasKind.symm.trans hbk)
      (by rw [← hasame.aliasNorm, ← hbsame.aliasNorm, hnorm]) (hasame.aliasId ▸ haids) (hbsame.aliasId ▸ hbids)
    apply hindex.alias_unique ha hb
    rw [hasame.aliasId, hbsame.aliasId, heq]

end Undo

/-! ## Every reachable store -/

/-- The platform invariant holds in every reachable store. -/
theorem platformInv_reachable (h : Reachable s) : PlatformInv s := by
  induction h with
  | empty nextAlias nextKey nextEvent => exact platformInv_empty nextAlias nextKey nextEvent
  | @call s hs c op ih =>
    unfold step
    split
    · rename_i s' returned hrun
      obtain rfl | ⟨id, -, hundo⟩ | ⟨d, name, hname, hacts, hm, rfl⟩ :=
        execute_mentioned hs.wellFormed.tables ih.voided_listed hrun
      · exact ih
      · exact ih.undo (mergeInv_reachable hs) hs.wellFormed hundo
      · exact ih.commit hs.wellFormed hacts hm hname
    · exact ih
  | rebuild _ keys nextKey ih => exact ih.rebuild keys nextKey

/-! ## Undos in the log -/

/-- What the log said when the undo was written: its target stood, and no later event that touches the same stood. -/
def InOrder (s : Store) (u : Event) : Prop :=
  ∃ t p, Standing s t p ∧ u.targetEventId = some t.eventId ∧
    ∀ f r, Standing s f r → t.eventId < f.eventId → p.touches.meet r.touches = false

theorem inOrder_of_undo {c : Context} {s s' : Store} {id : Nat} (hs : Tables s) (h : undo c id s = .ok s') :
    ∃ u, s'.events = s.events ++ [u] ∧ InOrder s u := by
  obtain ⟨t, p, keys, changes, d, hok, -, hbody, rfl⟩ := undo_ok h
  refine ⟨_, (appends_appendEvent ((undoBody_acts hbody).derived hs) .undo (some id)).events, t, p, hok.toStanding,
    congrArg some hok.eventId.symm, fun f r hf hlt => ?_⟩
  rw [← Bool.not_eq_true]
  exact fun hmeet => hf.blocks (hok.eventId ▸ hlt) hmeet hok.free

/-- A call leaves the log, or adds one event; an undo that it adds is in order. -/
theorem events_step (hs : Reachable s) (c : Context) (op : Op) : (step c s op).1.events = s.events ∨
    ∃ u, (step c s op).1.events = s.events ++ [u] ∧ (u.op = .undo → InOrder s u) := by
  unfold step
  split
  · next s' returned hrun =>
    have htables := hs.wellFormed.tables
    obtain rfl | ⟨id, -, hundo⟩ | ⟨d, name, hname, hacts, -, rfl⟩ :=
      execute_mentioned htables (platformInv_reachable hs).voided_listed hrun
    · exact .inl rfl
    · obtain ⟨u, hevents, horder⟩ := inOrder_of_undo htables hundo
      exact .inr ⟨u, hevents, fun _ => horder⟩
    · exact .inr ⟨_, (appends_appendEvent (hacts.derived htables) name none).events, fun hop => absurd hop hname⟩
  · exact .inl rfl

/-- The log is only added to, and each undo was in order when it was written. -/
theorem undos_in_order {s : Store} (h : Reachable s) :
    (∀ c op, s.events <+: (step c s op).1.events) ∧
      (∀ (keys : List KeyRow) (nextKey : Nat), s.events <+: Store.events { s with keys := keys, nextKey := nextKey }) ∧
      ∀ before u, before ++ [u] <+: s.events → u.op = .undo → ∃ s₀, Reachable s₀ ∧
        s₀.events = before ∧ InOrder s₀ u := by
  refine ⟨fun c op => ?_, fun keys nextKey => List.prefix_rfl, ?_⟩
  · obtain hsame | ⟨u, hevents, -⟩ := events_step h c op
    · rw [hsame]
    · rw [hevents]
      exact List.prefix_append s.events [u]
  · induction h with
    | empty =>
      intro before u hlog
      simp [emptyScope] at hlog
    | rebuild _ _ _ ih => exact ih
    | @call s hs c op ih =>
      intro before u hlog hop
      obtain hsame | ⟨last, hevents, horder⟩ := events_step hs c op
      · rw [hsame] at hlog
        exact ih before u hlog hop
      · rw [hevents, List.prefix_concat_iff] at hlog
        refine hlog.elim (fun hlast => ?_) fun hbefore => ih before u hbefore hop
        obtain ⟨rfl, hu⟩ := List.append_inj' hlast rfl
        cases hu
        exact ⟨s, hs, rfl, horder hop⟩

/-- A name is given and taken back. -/
theorem undos_in_order_named : ∃ u s₀, u.targetEventId = some 2 ∧ Reachable s₀ ∧ InOrder s₀ u := by
  let s := run (emptyScope 1 1 1)
    [(plainContext 1, .createEntity "Ann" .person), (plainContext 2, .addAlias 1 "ann" {}), (plainContext 3, .undo 2)]
  obtain ⟨u, hlog, hop, htarget⟩ : ∃ u, s.events.take 2 ++ [u] <+: s.events ∧ u.op = .undo ∧ u.targetEventId = some 2 :=
    ⟨s.events.getD 2 ⟨0, .undo, none, none⟩, by decide +kernel⟩
  obtain ⟨s₀, hs₀, -, horder⟩ := (undos_in_order ((Reachable.empty 1 1 1).run _)).2.2 _ u hlog hop
  exact ⟨u, s₀, htarget, hs₀, horder⟩

end EntityStore
