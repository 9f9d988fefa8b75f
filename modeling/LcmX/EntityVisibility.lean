import LcmX.EntityHistory

/-!
# What a reader learns from hidden rows

Two stores look the same to a reader when they differ only in aliases and notes
that the reader may not see. The resolved view and the alias lookup then agree.
The key lookup agrees too, but for one guard: a subject that someone uses as a
relation phrase is not resolved as a name without its owner, and the guard reads
the phrases of all readers.
-/
namespace EntityStore

open Fallible

structure LooksSame (env : Env) (access : Access) (s t : Store) : Prop where
  entities : s.entities = t.entities
  aliases : s.aliases.filter (aliasVisible env access) = t.aliases.filter (aliasVisible env access)
  notes : s.notes.filter (noteVisible env access) = t.notes.filter (noteVisible env access)
  keys : s.keys = t.keys
  events : s.events = t.events

section Reads

variable {env : Env} {access : Access} {s t : Store}

theorem kindChange_congr (h : s.events = t.events) : kindChange s = kindChange t := by
  funext id
  rw [kindChange, kindChange, undone_congr h, h]

theorem visibleAliases_filter (env : Env) (access : Access) (s : Store) : visibleAliases env access s =
    (s.aliases.filter (aliasVisible env access)).filter
    (fun a => a.aliasId ∉ voided Created.aliases s && a.retiredAt = none) := by
  rw [visibleAliases, List.filter_filter]
  apply List.filter_congr
  intro a _
  rw [Bool.and_assoc, Bool.and_comm]

theorem visibleNotes_filter (env : Env) (access : Access) (s : Store) : visibleNotes env access s =
    (s.notes.filter (noteVisible env access)).filter
    (fun n => n.noteId ∉ voided Created.notes s && n.supersededBy = none) := by
  rw [visibleNotes, List.filter_filter]
  apply List.filter_congr
  intro n _
  rw [Bool.and_assoc, Bool.and_comm]

theorem LooksSame.resolvedView_eq (h : LooksSame env access s t) (platformNorm : Option String) :
    resolvedView env access platformNorm s = resolvedView env access platformNorm t := by
  have halias : visibleAliases env access s = visibleAliases env access t := by
    rw [visibleAliases_filter, visibleAliases_filter, h.aliases, voided_congr h.events]
  have hnotes : visibleNotes env access s = visibleNotes env access t := by
    rw [visibleNotes_filter, visibleNotes_filter, h.notes, voided_congr h.events]
  have hlive : liveEntities s = liveEntities t := by
    rw [liveEntities, liveEntities, voided_congr h.events, h.entities]
  simp only [resolvedView, viewOf, viewKeys, halias, hnotes, hlive, kindChange_congr h.events, h.keys]

theorem LooksSame.lookupAlias_eq (h : LooksSame env access s t) (text : String) :
    lookupAlias env access text s = lookupAlias env access text t := by
  simp only [lookupAlias, h.resolvedView_eq]

theorem LooksSame.bindingOverride_eq (h : LooksSame env access s t) (subjectKey : String) (storeId : Int)
    (owner : Option EntityId) :
      bindingOverride s subjectKey storeId owner = bindingOverride t subjectKey storeId owner := by
  have hover : overrides s = overrides t := by
    rw [overrides, overrides, undone_congr h.events, h.events]
  simp only [bindingOverride, hover, activeKeys, h.keys]

theorem LooksSame.derivedTargets_eq (h : LooksSame env access s t) (view : View) (subjectKey : String) (storeId : Int)
    (owner : Option EntityId) : derivedTargets s view subjectKey storeId owner =
      derivedTargets t view subjectKey storeId owner := by
  simp only [derivedTargets, ownerAliasRows, h.keys]

theorem LooksSame.getLiveEntity_eq (h : LooksSame env access s t) (id : EntityId) :
    getLiveEntity s id = getLiveEntity t id := by
  simp only [getLiveEntity, h.entities, voided_congr h.events]

/-! ## The key lookup -/

/-- A relation phrase in use that the subject may stand for. -/
def isPhrase (u : Unicode) (subjectKey : String) (row : Alias) : Bool :=
  row.aliasKind = .relationPhrase && row.retiredAt = none &&
    (row.aliasNorm = normalizeAlias u (valueOf subjectKey) || row.aliasNorm = "my " ++
      normalizeAlias u (valueOf subjectKey))

theorem relationPhrase_any (u : Unicode) (s : Store) (subjectKey : String) :
    relationPhrase u s subjectKey = s.aliases.any (isPhrase u subjectKey) := rfl

/-- The guard is read for a subject without owner only. -/
theorem resolveDerived_eq {view : View} {subjectKey : String} {owner : Option EntityId} {rows : List EntityId}
    (h : owner = none → relationPhrase env.unicode s subjectKey = relationPhrase env.unicode t subjectKey) :
    resolveDerived env s view subjectKey owner rows = resolveDerived env t view subjectKey owner rows := by
  cases owner with
  | none => simp only [resolveDerived, h rfl]
  | some o => simp only [resolveDerived, reduceCtorEq, and_false, if_false]

theorem LooksSame.resolveKey_eq (h : LooksSame env access s t) {subjectKey : String} {storeId : Int}
    {owner : Option EntityId}
    (hguard : owner = none → relationPhrase env.unicode s subjectKey = relationPhrase env.unicode t subjectKey) :
    resolveKey env access subjectKey storeId owner s = resolveKey env access subjectKey storeId owner t := by
  simp only [resolveKey, h.getLiveEntity_eq, h.resolvedView_eq, h.bindingOverride_eq, h.derivedTargets_eq,
    resolveDerived_eq hguard]

/-- Where the guard holds, it can only withdraw the answer. -/
theorem LooksSame.resolveKey_guarded (h : LooksSame env access s t) {subjectKey : String} (storeId : Int)
    (hguard : relationPhrase env.unicode s subjectKey = true) :
    resolveKey env access subjectKey storeId none s = resolveKey env access subjectKey storeId none t ∨
      resolveKey env access subjectKey storeId none s = .ok none := by
  have hnone : ∀ view rows, resolveDerived env s view subjectKey none rows = none :=
    fun view rows => if_pos ⟨hguard, rfl⟩
  simp only [resolveKey, h.resolvedView_eq, h.bindingOverride_eq, hnone]
  cases keySources env access with
  | error refusal => exact Or.inl rfl
  | ok sources =>
    cases hview : resolvedView env access none t with
    | error refusal => exact Or.inl rfl
    | ok view =>
      simp only [bind, Except.bind]
      split
      · exact Or.inl rfl
      · split
        · exact Or.inl rfl
        · split
          · exact Or.inl rfl
          · exact Or.inr rfl

end Reads

/-! ## Deleting a hidden row -/

theorem looksSame_alias (env : Env) (access : Access) (s : Store) {row : Alias}
    (h : aliasVisible env access row = false)
    (before after : List Alias) :
    LooksSame env access { s with aliases := before ++ row :: after } { s with aliases := before ++ after } := by
  refine ⟨rfl, ?_, rfl, rfl, rfl⟩
  rw [List.filter_append, List.filter_append, List.filter_cons, h]
  rfl

theorem looksSame_note (env : Env) (access : Access) (s : Store) {row : Note} (h : noteVisible env access row = false)
    (before after : List Note) :
    LooksSame env access { s with notes := before ++ row :: after } { s with notes := before ++ after } := by
  refine ⟨rfl, rfl, ?_, rfl, rfl⟩
  rw [List.filter_append, List.filter_append, List.filter_cons, h]
  rfl

/-- Deleting an alias or a note that the reader may not see changes neither the
resolved view nor an alias lookup nor a key lookup. One case is kept apart: while a
hidden relation phrase for the subject is in use, the key lookup without owner
gives the same answer or none. -/
theorem hidden_rows (env : Env) (access : Access) (s : Store) :
    (∀ (before after : List Alias) (row : Alias), aliasVisible env access row = false →
      (∀ platformNorm, resolvedView env access platformNorm { s with aliases := before ++ row :: after } =
        resolvedView env access platformNorm { s with aliases := before ++ after }) ∧
      (∀ text, lookupAlias env access text { s with aliases := before ++ row :: after } =
        lookupAlias env access text { s with aliases := before ++ after }) ∧
      ∀ subjectKey storeId owner,
        resolveKey env access subjectKey storeId owner { s with aliases := before ++ row :: after } =
          resolveKey env access subjectKey storeId owner { s with aliases := before ++ after } ∨
        owner = none ∧ isPhrase env.unicode subjectKey row = true ∧
          resolveKey env access subjectKey storeId owner { s with aliases := before ++ row :: after } = .ok none) ∧
    ∀ (before after : List Note) (row : Note), noteVisible env access row = false →
      (∀ platformNorm, resolvedView env access platformNorm { s with notes := before ++ row :: after } =
        resolvedView env access platformNorm { s with notes := before ++ after }) ∧
      (∀ text, lookupAlias env access text { s with notes := before ++ row :: after } =
        lookupAlias env access text { s with notes := before ++ after }) ∧
      ∀ subjectKey storeId owner,
        resolveKey env access subjectKey storeId owner { s with notes := before ++ row :: after } =
          resolveKey env access subjectKey storeId owner { s with notes := before ++ after } := by
  constructor
  · intro before after row hhidden
    have hsame := looksSame_alias env access s hhidden before after
    refine ⟨hsame.resolvedView_eq, hsame.lookupAlias_eq, fun subjectKey storeId owner => ?_⟩
    by_cases hphrase : owner = none ∧ isPhrase env.unicode subjectKey row = true
    · obtain ⟨rfl, hrow⟩ := hphrase
      have hguard : relationPhrase env.unicode { s with aliases := before ++ row :: after } subjectKey = true := by
        rw [relationPhrase_any]
        exact List.any_eq_true.mpr ⟨row, List.mem_append_right _ List.mem_cons_self, hrow⟩
      exact (hsame.resolveKey_guarded storeId hguard).imp_right (fun hnone => ⟨rfl, hrow, hnone⟩)
    · left
      apply hsame.resolveKey_eq
      intro howner
      have hrow : isPhrase env.unicode subjectKey row = false := by
        rw [Bool.eq_false_iff]
        exact fun hrow => hphrase ⟨howner, hrow⟩
      rw [relationPhrase_any, relationPhrase_any, List.any_append, List.any_append, List.any_cons, hrow, Bool.false_or]
  · intro before after row hhidden
    have hsame := looksSame_note env access s hhidden before after
    exact ⟨hsame.resolvedView_eq, hsame.lookupAlias_eq,
      fun subjectKey storeId owner => hsame.resolveKey_eq (fun _ => rfl)⟩

/-- One message of each of two principals, and a statement of the first about
`person:mom`. -/
def familyEnv : Env where
  unicode := plainUnicode
  messages := [⟨1, some "P2"⟩, ⟨2, some "P1"⟩]
  assertions := .rows [("person:mom", 1)]

def familyContext (entity : EntityId) : Context := { plainContext entity with env := familyEnv }

/-- Uma calls Martha "my mom" in a message of the second principal; someone else has
the nickname. -/
def family : Store := run (emptyScope 1 1 1)
  [(familyContext 1, .createEntity "Uma" .person), (familyContext 0, .addAlias 1 "uma" { sourceStoreIds := [1] }),
    (familyContext 2, .createEntity "Martha" .person),
      (familyContext 0, .addAlias 2 "martha" { sourceStoreIds := [1] }),
    (familyContext 0, .addAlias 2 "my mom"
      { aliasKind := .relationPhrase, ownerEntityId := some 1, sourceStoreIds := [2] }),
    (familyContext 3, .createEntity "Mom Jones" .person),
    (familyContext 0, .addAlias 3 "mom" { aliasKind := .nickname, sourceStoreIds := [1] })]

def phrase : Alias where
  aliasId := 3
  entityId := 2
  aliasNorm := "my mom"
  aliasDisplay := "my mom"
  aliasKind := .relationPhrase
  ownerEntityId := some 1
  sourceStoreIds := [2]

theorem hidden_rows_family :
    aliasVisible familyEnv ⟨some "P2", false⟩ phrase = false ∧
    resolvedView familyEnv ⟨some "P2", false⟩
      none { family with aliases := family.aliases.take 2 ++ phrase :: family.aliases.drop 3 } =
      resolvedView familyEnv ⟨some "P2", false⟩
        none { family with aliases := family.aliases.take 2 ++ family.aliases.drop 3 } := by
  have hhidden : aliasVisible familyEnv ⟨some "P2", false⟩ phrase = false := by decide +kernel
  exact ⟨hhidden, ((hidden_rows familyEnv ⟨some "P2", false⟩ family).1 _ _ phrase hhidden).1 none⟩

/-- Without the hidden phrase the subject resolves to the nickname's entity. -/
theorem hidden_phrase_withdraws :
    family.aliases = family.aliases.take 2 ++ phrase :: family.aliases.drop 3 ∧
    phrase.sourceStoreIds.all (messageVisible familyEnv ⟨some "P2", false⟩) = false ∧
    resolveKey familyEnv ⟨some "P2", false⟩ "person:mom" 1 none family = .ok none ∧
    resolveKey familyEnv ⟨some "P2", false⟩ "person:mom" 1 none
      { family with aliases := family.aliases.take 2 ++ family.aliases.drop 3 } = .ok (some 3) := by
  decide +kernel

end EntityStore
