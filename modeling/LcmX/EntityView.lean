import LcmX.EntityStore
import Mathlib.Data.List.Sort

/-!
# Reading the entity store

The history, the canonical entity and the resolved view. The view reduces the
trusted history of the profile and then shows only what the reader may see.
-/
namespace EntityStore

/-! ## History -/

def undone (s : Store) : List Nat := s.events.filterMap (fun e => if e.op = .undo then e.targetEventId else none)

/-- The created rows of the undone events. -/
def voided {α : Type} (ids : Created → List α) (s : Store) : List α :=
  s.events.flatMap (fun e => if e.eventId ∈ undone s then e.payload.elim [] (fun p => ids p.created) else [])

def kindAfter (id : EntityId) (kind : Option Kind) (e : Event) : Option Kind :=
  match e.payload.bind Payload.kind with
  | some change => if change.entityId = id then some change.after else kind
  | none => kind

/-- The last change of an entity's kind that stands. -/
def kindChange (s : Store) (id : EntityId) : Option Kind :=
  s.events.foldl (fun kind e => if e.eventId ∉ undone s ∧ e.op = .changeKind then kindAfter id kind e else kind) none

def currentKind (s : Store) (e : Entity) : Kind := (kindChange s e.entityId).getD e.kind

def liveEntities (s : Store) : List Entity := s.entities.filter (fun r => r.entityId ∉ voided Created.entities s)

def findEntity (entities : List Entity) (id : EntityId) : Option Entity := entities.find? (fun r => r.entityId = id)

/-! ## Canonical entities -/

/-- `for _ in range(len(entities))` -/
def canonicalFrom (entities : List Entity) : Nat → EntityId → Except Refusal EntityId
  | 0, _ => .error .hopLimit
  | n + 1, key =>
    match findEntity entities key with
    | none => .error .notFound
    | some row =>
      match row.mergedInto with
      | none => .ok key
      | some into => canonicalFrom entities n into

def canonical (entities : List Entity) (key : EntityId) : Except Refusal EntityId :=
  if entities.any (fun r => r.entityId = key) then canonicalFrom entities entities.length key else .error .notFound

/-- The entities a merged entity leads to. The loop of the source has no bound:
it runs where every entity has a canonical one. -/
def ancestors (entities : List Entity) : Nat → EntityId → List EntityId
  | 0, _ => []
  | n + 1, key =>
    match (findEntity entities key).bind Entity.mergedInto with
    | none => []
    | some into => into :: ancestors entities n into

/-! ## The resolved view -/

structure Candidates where
  candidates : List EntityId
  ambiguous : Bool
  deriving DecidableEq, Repr

structure CardAlias where
  aliasId : Nat
  aliasDisplay : String
  aliasNorm : String
  aliasKind : AliasKind
  deriving DecidableEq, Repr

structure CardNote where
  noteId : NoteId
  text : String
  kind : NoteKind
  deriving DecidableEq, Repr

structure Card where
  displayName : String
  kind : Kind
  aliases : List CardAlias
  notes : List CardNote
  deriving DecidableEq, Repr

structure ViewKey where
  subjectKey : String
  ownerEntityId : Option EntityId
  entityId : EntityId
  method : Method
  sourceStoreIds : List Int
  deriving DecidableEq, Repr

structure View where
  canonical : List (EntityId × EntityId)
  aliases : List (String × Candidates)
  cards : List (EntityId × Card)
  relations : List (String × List (Option EntityId × Candidates))
  keys : List ViewKey
  deriving DecidableEq, Repr

def candidatesOf (ids : List EntityId) : Candidates :=
  let sorted := ids.eraseDups.insertionSort (fun a b => a ≤ b)
  ⟨sorted, 1 < sorted.length⟩

def visibleAliases (env : Env) (access : Access) (s : Store) : List Alias :=
  s.aliases.filter (fun a => aliasVisible env access a && a.aliasId ∉ voided Created.aliases s && a.retiredAt = none)

def visibleNotes (env : Env) (access : Access) (s : Store) : List Note :=
  s.notes.filter (fun n => noteVisible env access n && n.noteId ∉ voided Created.notes s && n.supersededBy = none)

/-- The entities with a visible record of their own or of an entity merged into
them. -/
def supported (entities : List Entity) (aliases : List Alias) (notes : List Note) : List EntityId :=
  let own := (aliases.map Alias.entityId ++ notes.filterMap Note.entityId).filter (fun id =>
    entities.any (fun r => r.entityId = id))
  own ++ own.flatMap (ancestors entities entities.length)

/-- The active entity an alias stands for. -/
def activeTarget (entities : List Entity) (canon : List (EntityId × EntityId)) (a : Alias) : Option EntityId :=
  (canon.lookup a.entityId).filter (fun target => (findEntity entities target).any (fun r => r.status = .active))

def aliasCandidates (entities : List Entity) (canon : List (EntityId × EntityId)) (aliases : List Alias) :
    List (String × Candidates) :=
  let pairs := aliases.filterMap (fun a =>
    if a.aliasKind = .relationPhrase then none else (activeTarget entities canon a).map (fun t => (a.aliasNorm, t)))
  ((pairs.map Prod.fst).eraseDups.insertionSort (fun a b => a < b ∨ a = b)).map (fun text =>
    (text, candidatesOf ((pairs.filter (fun p => p.1 = text)).map Prod.snd)))

/-- Relation phrases are grouped by owner; a principal must see the owner. -/
def relationGroups (access : Access) (entities : List Entity) (canon : List (EntityId × EntityId))
    (aliases : List Alias) : List (String × List (Option EntityId × Candidates)) :=
  let rows := aliases.filterMap (fun a =>
    if a.aliasKind = .relationPhrase ∧
        (access.principal = none ∨ a.ownerEntityId.any (fun owner => (canon.lookup owner).isSome)) then
      (activeTarget entities canon a).map (fun t => (a.aliasNorm, a.ownerEntityId, t))
    else none)
  (rows.map Prod.fst).eraseDups.map (fun text =>
    let group := (rows.filter (fun r => r.1 = text)).map Prod.snd
    (text, (group.map Prod.fst).eraseDups.map (fun owner =>
      (owner, candidatesOf ((group.filter (fun r => r.1 = owner)).map Prod.snd)))))

def cardsOf (kinds : EntityId → Option Kind) (entities : List Entity) (canon : List (EntityId × EntityId))
    (aliases : List Alias) (notes : List Note) : List (EntityId × Card) :=
  ((canon.map Prod.snd).eraseDups.insertionSort (fun a b => a ≤ b)).filterMap (fun key =>
    match findEntity entities key with
    | none => none
    | some row =>
      if row.status = .active then
        some (key, {
          displayName := row.displayName
          kind := (kinds key).getD row.kind
          aliases := (aliases.filter (fun a => canon.lookup a.entityId = some key)).map (fun a =>
            ⟨a.aliasId, a.aliasDisplay, a.aliasNorm, a.aliasKind⟩)
          notes := (notes.filter (fun n => n.entityId.any (fun id => canon.lookup id = some key))).map (fun n =>
            ⟨n.noteId, n.text, n.kind⟩) })
      else none)

def namespaceKind (ns : String) : Option Kind :=
  [("person", .person), ("user", .person), ("assistant", .agent), ("organization", .org), ("project", .project),
    ("place", .place), ("object", .thing), ("account", .thing), ("document", .thing)].lookup ns

/-- `namespace in {"user", "assistant"}` -/
def isProfile (ns : String) : Bool := ns = "user" || ns = "assistant"

def View.relationGroup (u : Unicode) (view : View) (value : String) : List (Option EntityId × Candidates) :=
  let norm := normalizeAlias u value
  (view.relations.lookup norm).getD ((view.relations.lookup ("my " ++ norm)).getD [])

def groupCandidates (groups : List (Option EntityId × Candidates)) (owner : Option EntityId) : List EntityId :=
  (groups.lookup owner).elim [] Candidates.candidates

def keyCandidates (u : Unicode) (view : View) (subjectKey : String) (owner : Option EntityId) : List EntityId :=
  let value := valueOf subjectKey
  if isProfile (namespaceOf subjectKey) then []
  else
    let groups := view.relationGroup u value
    let candidates :=
      if groups ≠ [] ∨ owner ≠ none then groupCandidates groups owner
      else
        let exact := (splitColon value).map (fun p => normalizePlatformId u p.1 p.2)
        (view.cards.filter (fun c => c.2.aliases.any (fun a =>
          match a.aliasKind with
          | .relationPhrase => false
          | .platformId => some a.aliasNorm = exact
          | _ => a.aliasNorm = normalizeAlias u value))).map Prod.fst
    candidates.filter (fun key => (view.cards.lookup key).any (fun card =>
      some card.kind = namespaceKind (namespaceOf subjectKey)))

/-- The active keys whose entity, and owner for a principal, is in the map. -/
def viewKeys (env : Env) (access : Access) (s : Store) (canon : List (EntityId × EntityId)) : List ViewKey :=
  (s.keys.filter (fun r => r.retiredAt = none && keyVisible env access r &&
    (access.principal.isNone || r.ownerEntityId.all (fun owner => (canon.lookup owner).isSome)))).filterMap (fun r =>
      (canon.lookup r.entityId).map (fun target =>
        ⟨r.subjectKey, r.ownerEntityId, target, r.method, r.sourceStoreIds⟩))

/-- A derived key is resolved again over what the principal sees. -/
def reResolve (u : Unicode) (view : View) (k : ViewKey) : Option ViewKey :=
  if k.method = .aliasMatch ∧ isProfile (namespaceOf k.subjectKey) = false then
    match keyCandidates u view k.subjectKey k.ownerEntityId with
    | [only] => some { k with entityId := only }
    | _ => none
  else some k

/-- By subject, and a key without owner first. -/
def keyOrder (a b : ViewKey) : Prop :=
  a.subjectKey < b.subjectKey ∨
    (a.subjectKey = b.subjectKey ∧ a.ownerEntityId.all (fun x => b.ownerEntityId.any (fun y => x ≤ y)) = true)

instance : DecidableRel keyOrder := fun _ _ => inferInstanceAs (Decidable (_ ∨ _))

/-- What the view is computed from, once the records are read. -/
def viewOf (env : Env) (access : Access) (s : Store) (entities : List Entity) (aliases : List Alias)
    (notes : List Note) (canon : List (EntityId × EntityId)) : View :=
  let canon := if access.principal = none then canon
    else canon.filter (fun p => p.1 ∈ supported entities aliases notes)
  let view : View := {
    canonical := canon
    aliases := aliasCandidates entities canon aliases
    cards := cardsOf (kindChange s) entities canon aliases notes
    relations := relationGroups access entities canon aliases
    keys := [] }
  let keys := viewKeys env access s canon
  let keys := if access.principal = none then keys else keys.filterMap (reResolve env.unicode view)
  { view with keys := keys.insertionSort keyOrder }

def canonicalMap (entities : List Entity) : Except Refusal (List (EntityId × EntityId)) :=
  entities.mapM (fun r => (canonical entities r.entityId).map (fun target => (r.entityId, target)))

/-- `resolved_view`; `platformNorm` keeps one platform id. -/
def resolvedView (env : Env) (access : Access) (platformNorm : Option String) (s : Store) : Except Refusal View := do
  let entities := liveEntities s
  let canon ← canonicalMap entities
  let aliases := (visibleAliases env access s).filter (fun a =>
    platformNorm.all (fun norm => a.aliasKind ≠ .platformId || a.aliasNorm = norm))
  .ok (viewOf env access s entities aliases (visibleNotes env access s) canon)

def lookupAlias (env : Env) (access : Access) (text : String) (s : Store) : Except Refusal Candidates := do
  let text := (splitColon text).elim text (fun p => normalizePlatformId env.unicode p.1 p.2)
  let view ← resolvedView env access (some text) s
  .ok ((view.aliases.lookup text).getD ((view.aliases.lookup (normalizeAlias env.unicode text)).getD ⟨[], false⟩))

/-! ## Keys -/

def sourceOrder (a b : String × Int) : Prop := a.1 < b.1 ∨ (a.1 = b.1 ∧ a.2 ≤ b.2)

instance : DecidableRel sourceOrder := fun _ _ => inferInstanceAs (Decidable (_ ∨ _))

/-- The current sources of each subject that the reader may see. -/
def keySources (env : Env) (access : Access) : Except Refusal (List (String × Int)) :=
  match env.assertions with
  | .absent => .ok []
  | .unverified => .error .assertionsUnverified
  | .rows current => .ok ((current.filter (fun p =>
      named access && visible env access [p.2] [] false)).eraseDups.insertionSort sourceOrder)

def activeKeys (s : Store) : List KeyRow := s.keys.filter (fun r => r.retiredAt = none)

/-- The derived rows of an owner's key: active ones first, then the newest. A
retired one counts while an override with sources holds the slot. -/
def ownerAliasRows (s : Store) (subject : String) (owner : EntityId) : List KeyRow :=
  let shadowed := s.keys.any (fun o => o.subjectKey = subject && o.ownerEntityId = some owner && o.method = .override &&
    o.retiredAt = none && o.sourceStoreIds ≠ [])
  let rows := s.keys.filter (fun a => a.subjectKey = subject && a.ownerEntityId = some owner && a.method = .aliasMatch)
  (rows.filter (fun a => a.retiredAt = none)).reverse ++
    (rows.filter (fun a => a.retiredAt ≠ none && shadowed)).reverse

def overrides (s : Store) : List Override :=
  (s.events.filter (fun e => e.op = .overrideKey && e.eventId ∉ undone s)).filterMap (fun e =>
    e.payload.bind Payload.override)

/-- The override that binds the source, if any; a global one of an owner must
still have its row. -/
def bindingOverride (s : Store) (subjectKey : String) (storeId : Int) (owner : Option EntityId) : Option Override :=
  (overrides s).reverse.find? (fun o => o.subjectKey = subjectKey && o.ownerEntityId = owner &&
    storeId ∈ o.scopeStoreIds && !(o.globalOverride && owner.isSome && !(activeKeys s).any (fun r =>
      r.subjectKey = subjectKey && r.ownerEntityId = owner && r.method = .override && storeId ∈ r.sourceStoreIds)))

/-- The entities of the derived key rows that cover the source. -/
def derivedTargets (s : Store) (view : View) (subjectKey : String) (storeId : Int) (owner : Option EntityId) :
    List EntityId :=
  let rows := (view.keys.filter (fun r => r.subjectKey = subjectKey && r.ownerEntityId = owner &&
    r.method = .aliasMatch && storeId ∈ r.sourceStoreIds)).map ViewKey.entityId
  match owner with
  | none => rows
  | some o =>
    if rows ≠ [] then rows
    else (((ownerAliasRows s subjectKey o).take 1).filter (fun r => storeId ∈ r.sourceStoreIds &&
      (view.cards.lookup r.entityId).isSome)).map KeyRow.entityId

/-- An unretired relation phrase with the text of the key, whoever may see it. -/
def relationPhrase (u : Unicode) (s : Store) (subjectKey : String) : Bool :=
  let norm := normalizeAlias u (valueOf subjectKey)
  s.aliases.any (fun r => r.aliasKind = .relationPhrase && r.retiredAt = none &&
    (r.aliasNorm = norm || r.aliasNorm = "my " ++ norm))

def onCard (view : View) (target : Option EntityId) : Option EntityId :=
  target.filter (fun t => (view.cards.lookup t).isSome)

/-- The last decision of `resolve_key`, when no override binds the source. -/
def resolveDerived (env : Env) (s : Store) (view : View) (subjectKey : String) (owner : Option EntityId)
    (rows : List EntityId) : Option EntityId :=
  if relationPhrase env.unicode s subjectKey ∧ owner = none then none
  else if owner ≠ none ∧ rows = [] then none
  else if isProfile (namespaceOf subjectKey) then
    (rows.head?.bind (fun id => view.canonical.lookup id)).filter (fun t => (view.cards.lookup t).any (fun card =>
      some card.kind = namespaceKind (namespaceOf subjectKey)))
  else
    match keyCandidates env.unicode view subjectKey owner with
    | [only] => some only
    | _ => none

/-- `EntityOps._get("entities", id)` -/
def getLiveEntity (s : Store) (id : EntityId) : Except Refusal Entity :=
  match findEntity s.entities id with
  | none => .error .notFound
  | some row => if id ∈ voided Created.entities s then .error .notFound else .ok row

/-- Resolve the subject of one source. -/
def resolveKey (env : Env) (access : Access) (subjectKey : String) (storeId : Int) (owner : Option EntityId)
    (s : Store) : Except Refusal (Option EntityId) := do
  if let some o := owner then
    let _ ← getLiveEntity s o
  let sources ← keySources env access
  if (subjectKey, storeId) ∉ sources then .ok none
  else
    let view ← resolvedView env access none s
    if owner ≠ none ∧ isProfile (namespaceOf subjectKey) = false ∧
        groupCandidates (view.relationGroup env.unicode (valueOf subjectKey)) owner = [] then .ok none
    else
      match bindingOverride s subjectKey storeId owner with
      | some o => .ok (onCard view (view.canonical.lookup o.entityId))
      | none => .ok (resolveDerived env s view subjectKey owner (derivedTargets s view subjectKey storeId owner))

end EntityStore
