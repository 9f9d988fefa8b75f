import LcmX.EntityView
import Mathlib

/-!
# Entity operations

Each operation is one transaction. It works on a draft: the store and the
payload of the event that will record it. A refusal or an exception rolls the
draft back; a commit appends the one event.
-/
namespace EntityStore

open ChangeLog

/-- What a call takes from outside: the other tables, the clock and the ids that
the generator hands out. -/
structure Context where
  env : Env
  now : Nat → Rat
  newEntity : EntityId
  newNote : Nat → NoteId

structure Draft where
  store : Store
  payload : Payload := {}
  -- readings of the clock so far
  ticks : Nat := 0

/-! ## Reading rows -/

/-- `EntityOps._get`: a row that is missing, hidden or void is not found. -/
def getRow {α : Type} (row : Option α) (void : Bool) : Except Refusal α :=
  match row with
  | none => .error .notFound
  | some r => if void then .error .notFound else .ok r

def getLiveAlias (env : Env) (s : Store) (id : Nat) : Except Refusal Alias :=
  getRow (getAlias env s id) (id ∈ voided Created.aliases s)

def getLiveNote (env : Env) (s : Store) (id : NoteId) : Except Refusal Note :=
  getRow (getNote env s id) (id ∈ voided Created.notes s)

def getLiveKey (s : Store) (id : Nat) : Except Refusal KeyRow :=
  getRow (s.keys.find? (fun r => r.keyId = id)) (id ∈ voided Created.keys s)

/-! ## Touches -/

/-- Append what is not yet there. -/
def push {α : Type} [DecidableEq α] (l : List α) (x : α) : List α := if x ∈ l then l else l ++ [x]

namespace Draft

def setTouches (d : Draft) (touches : Touches) : Draft := { d with payload := { d.payload with touches := touches } }

def touchEntity (d : Draft) (id : Option EntityId) : Draft :=
  id.elim d (fun id => d.setTouches { d.payload.touches with entities := push d.payload.touches.entities id })

def touchEntities (d : Draft) (ids : List (Option EntityId)) : Draft := ids.foldl touchEntity d

def touchNote (d : Draft) (id : Option NoteId) : Draft :=
  id.elim d (fun id => d.setTouches { d.payload.touches with notes := push d.payload.touches.notes id })

def touchKey (d : Draft) (key : String × Option EntityId) : Draft :=
  d.setTouches { d.payload.touches with keys := push d.payload.touches.keys key }

/-- The touches of an alias; a platform id is touched by its text too. -/
def aliasTouches (touches : List AliasTouch) (row : Alias) : List AliasTouch :=
  let touches := push touches (.id row.aliasId)
  if row.aliasKind = .platformId then push touches (.norm row.aliasNorm) else touches

/-- An alias is read back when it is first touched. -/
def touchAlias (env : Env) (d : Draft) (id : Nat) : Except Refusal Draft :=
  if AliasTouch.id id ∈ d.payload.touches.aliases then .ok d
  else
    match getAlias env d.store id with
    | none => .error .missingRow
    | some row => .ok (d.setTouches { d.payload.touches with aliases := aliasTouches d.payload.touches.aliases row })

/-! ## Projected fields -/

def addChange (d : Draft) (change : FieldChange) : Draft :=
  { d with payload := { d.payload with changes := d.payload.changes ++ [change] } }

def projectEntity (id : EntityId) (after : Status × Option EntityId) (d : Draft) : Except Refusal Draft := do
  let row ← getLiveEntity d.store id
  let d := { d with store := setEntityStatus id after d.store }
  .ok ((d.addChange (.entity ⟨id, (row.status, row.mergedInto), after⟩)).touchEntity (some id))

def projectNote (c : Context) (id : NoteId) (after : Option NoteId) (d : Draft) : Except Refusal Draft := do
  let row ← getLiveNote c.env d.store id
  let d := { d with store := setNoteSuperseded id after d.store }
  .ok (((d.addChange (.note ⟨id, row.supersededBy, after⟩)).touchNote (some id)).touchEntity row.entityId)

/-- What a retirement writes: the clock, or a value of the log. -/
inductive Stamp where
  | now
  | value (v : Option Rat)
  deriving DecidableEq, Repr

def stamp (c : Context) (d : Draft) : Stamp → Option Rat
  | .now => some (c.now d.ticks)
  | .value v => v

def projectAlias (c : Context) (id : Nat) (after : Stamp) (d : Draft) : Except Refusal Draft := do
  let row ← getLiveAlias c.env d.store id
  let v := stamp c d after
  let s ← setAliasRetired row v d.store
  let d ← touchAlias c.env ({ d with store := s, ticks := d.ticks + 1 }.addChange (.aliasRow ⟨id, row.retiredAt, v⟩)) id
  .ok (d.touchEntity (some row.entityId))

def projectKey (c : Context) (id : Nat) (after : Stamp) (d : Draft) : Except Refusal Draft := do
  let row ← getLiveKey d.store id
  let v := stamp c d after
  let s ← setKeyRetired row v d.store
  let d := { d with store := s, ticks := d.ticks + 1 }.addChange (.key ⟨id, row.retiredAt, v⟩)
  .ok ((d.touchKey (row.subjectKey, row.ownerEntityId)).touchEntity (some row.entityId))

/-! ## New rows -/

def setCreated (d : Draft) (created : Created) : Draft := { d with payload := { d.payload with created := created } }

def newEntity (c : Context) (displayName : String) (kind : Kind) (d : Draft) : Except Refusal Draft := do
  let s ← insertEntity { entityId := c.newEntity, kind := kind, displayName := displayName } d.store
  let d := { d with store := s }.setCreated
    { d.payload.created with entities := d.payload.created.entities ++ [c.newEntity] }
  .ok (d.touchEntity (some c.newEntity))

/-- The row gets the next alias id, is recorded as created and touched. -/
def newAlias (c : Context) (row : Alias) (touched : List (Option EntityId)) (d : Draft) : Except Refusal Draft := do
  let id := d.store.nextAlias
  let s ← insertAlias row d.store
  let d := { d with store := s }.setCreated { d.payload.created with aliases := d.payload.created.aliases ++ [id] }
  touchAlias c.env (d.touchEntities touched) id

def nextNote (c : Context) (d : Draft) : NoteId := c.newNote d.payload.created.notes.length

def newNote (c : Context) (row : Note) (d : Draft) : Except Refusal Draft := do
  let id := nextNote c d
  let s ← insertNote { row with noteId := id, supersededBy := none } d.store
  let d := { d with store := s }.setCreated { d.payload.created with notes := d.payload.created.notes ++ [id] }
  .ok (d.touchNote (some id))

/-- Keys are recorded as created and not touched. -/
def newKey (row : KeyRow) (d : Draft) : Except Refusal Draft := do
  let s ← insertKey row d.store
  .ok ({ d with store := s }.setCreated { d.payload.created with keys := d.payload.created.keys ++ [d.store.nextKey] })

end Draft

open Draft

/-! ## Operations -/

def platformId (u : Unicode) (pid : String) : Except Refusal String :=
  match splitColon pid with
  | none => .error .invalidPlatformId
  | some (platform, identifier) =>
    if platform = "" ∨ identifier = "" then .error .invalidPlatformId
    else .ok (normalizePlatformId u platform identifier)

/-- `next(..)` over the visible unretired aliases with this platform id. -/
def holderForPlatformId (env : Env) (s : Store) (pid : String) : Except Refusal (Option EntityId) := do
  let pid ← platformId env.unicode pid
  match (aliasesByNorm env s pid).find? (fun a => a.aliasKind = .platformId) with
  | none => .ok none
  | some a =>
    let target ← canonical (liveEntities s) a.entityId
    .ok (some target)

def createEntity (c : Context) (displayName : String) (kind : Kind) (d : Draft) : Except Refusal Draft :=
  newEntity c displayName kind d

structure AliasOptions where
  aliasKind : AliasKind := .name
  platform : Option String := none
  verified : Bool := false
  ownerEntityId : Option EntityId := none
  sourceStoreIds : List Int := []
  deriving DecidableEq, Repr

/-- The text an alias is looked up by. A platform id must be verified and free. -/
def aliasNorm (c : Context) (display : String) (o : AliasOptions) (s : Store) : Except Refusal String :=
  if o.aliasKind = .platformId then
    match o.platform with
    | none => .error .invalidPlatformId
    | some platform =>
      if platform = "" then .error .invalidPlatformId
      else do
        let norm ← platformId c.env.unicode (normalizePlatformId c.env.unicode platform display)
        if o.verified = false then .error .unverifiedPlatformId
        else
          match ← holderForPlatformId c.env s norm with
          | some holder => .error (.platformIdHeld holder)
          | none => .ok norm
  else .ok (normalizeAlias c.env.unicode display)

/-- The entities an operation names must be there. -/
def checkEntities (s : Store) : List (Option EntityId) → Except Refusal Unit
  | [] => .ok ()
  | none :: rest => checkEntities s rest
  | some id :: rest => do
    let _ ← getLiveEntity s id
    checkEntities s rest

def aliasRow (entityId : EntityId) (norm display : String) (o : AliasOptions) : Alias where
  aliasId := 0
  entityId := entityId
  aliasNorm := norm
  aliasDisplay := display
  aliasKind := o.aliasKind
  ownerEntityId := o.ownerEntityId
  sourceStoreIds := o.sourceStoreIds

/-- `EntityOps._alias` -/
def addAlias (c : Context) (entityId : EntityId) (display : String) (o : AliasOptions) (d : Draft) :
    Except Refusal Draft := do
  checkEntities d.store [some entityId, o.ownerEntityId]
  if o.aliasKind = .relationPhrase ∧ o.ownerEntityId = none then .error .missingOwner
  else
    let norm ← aliasNorm c display o d.store
    newAlias c (aliasRow entityId norm display o) [some entityId, o.ownerEntityId] d

def retireAlias (c : Context) (aliasId : Nat) (d : Draft) : Except Refusal Draft := do
  let row ← getLiveAlias c.env d.store aliasId
  if row.retiredAt ≠ none then .error .notActive else projectAlias c aliasId .now d

structure NoteOptions where
  kind : NoteKind := .fact
  entityId : Option EntityId := none
  aboutEntityId : Option EntityId := none
  assertedByEntityId : Option EntityId := none
  cites : List Int := []
  citesFileRevisions : List RevisionId := []
  author : Author := .agent
  supersededBy : Option NoteId := none
  retractsNoteId : Option NoteId := none
  retractsStoreIds : List Int := []
  deriving DecidableEq, Repr

def checkNote (env : Env) (s : Store) (id : Option NoteId) : Except Refusal Unit :=
  match id with
  | none => .ok ()
  | some id => do
    let _ ← getLiveNote env s id
    .ok ()

def noteRow (text : String) (o : NoteOptions) : Note where
  noteId := 0
  entityId := o.entityId
  aboutEntityId := o.aboutEntityId
  kind := o.kind
  text := text
  assertedByEntityId := o.assertedByEntityId
  cites := o.cites
  citesFileRevisions := o.citesFileRevisions
  author := o.author
  retractsNoteId := o.retractsNoteId
  retractsStoreIds := o.retractsStoreIds

def addNote (c : Context) (text : String) (o : NoteOptions) (d : Draft) : Except Refusal Draft := do
  checkEntities d.store [o.entityId, o.aboutEntityId, o.assertedByEntityId]
  checkNote c.env d.store o.supersededBy
  checkNote c.env d.store o.retractsNoteId
  let d := d.touchEntities [o.entityId, o.aboutEntityId, o.assertedByEntityId]
  let d := (d.touchNote o.supersededBy).touchNote o.retractsNoteId
  let key := nextNote c d
  let d ← newNote c (noteRow text o) d
  match o.supersededBy with
  | none => .ok d
  | some superseding => projectNote c key (some superseding) d

def changeKind (entityId : EntityId) (kind : Kind) (d : Draft) : Except Refusal Draft := do
  let entity ← getLiveEntity d.store entityId
  let p := { d.payload with kind := some ⟨entityId, currentKind d.store entity, kind⟩ }
  .ok ({ d with payload := p }.touchEntity (some entityId))

def merge (into fromEntity : EntityId) (allowKindMismatch : Bool) (d : Draft) : Except Refusal Draft := do
  let entities := liveEntities d.store
  let d := d.touchEntities [some into, some fromEntity]
  let target ← canonical entities into
  let source ← canonical entities fromEntity
  if target = source then .error .sameCanonical
  else
    let a ← getLiveEntity d.store target
    let b ← getLiveEntity d.store source
    if a.status = .forgotten ∨ b.status = .forgotten then .error .forgotten
    else if allowKindMismatch = false ∧ currentKind d.store a ≠ currentKind d.store b then .error .kindMismatch
    else projectEntity source (.merged, some target) (d.touchEntities [some target, some source, some fromEntity])

/-- Move one alias: retired here, added there. -/
def splitAlias (c : Context) (new : EntityId) (d : Draft) (row : Alias) : Except Refusal Draft := do
  let d ← projectAlias c row.aliasId .now d
  let d ← newAlias c { row with entityId := new, retiredAt := none } [] d
  .ok (d.touchEntity row.ownerEntityId)

/-- Move one note: superseded by its copy. -/
def splitNote (c : Context) (new : EntityId) (d : Draft) (row : Note) : Except Refusal Draft := do
  let key := nextNote c d
  let d ← newNote c { row with entityId := some new } d
  let d := (d.touchEntities [row.aboutEntityId, row.assertedByEntityId]).touchNote row.retractsNoteId
  projectNote c row.noteId (some key) d

def split (c : Context) (entityId : EntityId) (aliasIds : List Nat) (noteIds : List NoteId) (displayName : String)
    (kind : Option Kind) (d : Draft) : Except Refusal Draft := do
  let entity ← getLiveEntity d.store entityId
  if entity.status ≠ .active then .error .notActive
  else
    let aliases ← aliasIds.eraseDups.mapM (getLiveAlias c.env d.store)
    let notes ← noteIds.eraseDups.mapM (getLiveNote c.env d.store)
    if aliases = [] ∧ notes = [] then .error .emptySelection
    else if aliases.any (fun r => r.entityId ≠ entityId || r.retiredAt ≠ none) ||
        notes.any (fun r => r.entityId ≠ some entityId || r.supersededBy ≠ none) then .error .foreignRow
    else
      let d ← newEntity c displayName (kind.getD (currentKind d.store entity)) d
      let d := d.touchEntity (some entityId)
      let d ← aliases.foldlM (splitAlias c c.newEntity) d
      notes.foldlM (splitNote c c.newEntity) d

/-- The creating branch of `attach_or_create_for_platform_id`. -/
def createForPlatformId (c : Context) (pid : String) (displayName : String) (d : Draft) : Except Refusal Draft := do
  let d ← newEntity c displayName .person d
  addAlias c c.newEntity (valueOf pid)
    { aliasKind := .platformId, platform := some (namespaceOf pid), verified := true } d

/-! ## Overrides -/

def sortedSources (ids : List Int) : List Int := ids.eraseDups.insertionSort (fun a b => a ≤ b)

/-- The active rows of one key are retired; a derived row of an owner leaves a
retired shadow behind. -/
def overrideSlot (c : Context) (subjectKey : String) (owner : Option EntityId) (d : Draft) (row : KeyRow) :
    Except Refusal Draft := do
  let d ← projectKey c row.keyId .now d
  if row.method = .aliasMatch ∧ owner ≠ none then
    let shadow :=
      { row with keyId := d.store.nextKey, subjectKey := subjectKey, ownerEntityId := owner, retiredAt := none }
    let d ← newKey shadow d
    let s ← setKeyRetired shadow (some (c.now d.ticks)) d.store
    .ok { d with store := s, ticks := d.ticks + 1 }
  else .ok d

def sameSlot (subjectKey : String) (owner : Option EntityId) (r : KeyRow) : Bool :=
  r.subjectKey = subjectKey && r.ownerEntityId = owner

/-- A key clash of an override is refused, not raised. -/
def keyHeld {α : Type} (x : Except Refusal α) : Except Refusal α :=
  match x with
  | .error .constraint => .error .keyHeld
  | .error .aliasIndex => .error .keyHeld
  | other => other

/-- The sources an override cites: those reviewed, or all the current ones; of an
owner's key only those its rows were derived from. -/
def citedSources (s : Store) (sources : List Int) (subjectKey : String) (owner : Option EntityId)
    (scopeStoreIds : Option (List Int)) : List Int :=
  match scopeStoreIds, owner with
  | some scope, _ => sortedSources (sources.filter (fun x => x ∈ scope))
  | none, none => sortedSources sources
  | none, some o =>
    let rows := (activeKeys s ++ (ownerAliasRows s subjectKey o).take 1).filter (sameSlot subjectKey owner)
    sortedSources (sources.filter (fun x => rows.any (fun r => x ∈ r.sourceStoreIds)))

def overrideRow (subjectKey : String) (owner : Option EntityId) (target : EntityId) (cited : List Int) : KeyRow where
  keyId := 0
  subjectKey := subjectKey
  ownerEntityId := owner
  entityId := target
  method := .override
  sourceStoreIds := cited

def overrideKeyBody (c : Context) (subjectKey : String) (entityId : EntityId) (scopeStoreIds : Option (List Int))
    (owner : Option EntityId) (d : Draft) : Except Refusal Draft := do
  let target ← canonical (liveEntities d.store) entityId
  match namespaceKind (namespaceOf subjectKey) with
  | none => .error .unbridgedNamespace
  | some compatible =>
    let entity ← getLiveEntity d.store target
    let kind := currentKind d.store entity
    if kind ≠ compatible ∧ kind ≠ .other ∧ kind ≠ .topic then .error .kindMismatch
    else
      checkEntities d.store [owner]
      let view ← resolvedView c.env trusted none d.store
      if owner = none ∧ (view.relationGroup c.env.unicode (valueOf subjectKey) ≠ [] ∨
          view.keys.any (fun r => r.subjectKey = subjectKey && r.ownerEntityId ≠ none) = true) then .error .missingOwner
      else if scopeStoreIds = none ∧ 1 < (keyCandidates c.env.unicode view subjectKey owner).length then
        .error .ambiguousKey
      else
        let current ← keySources c.env trusted
        let cited := citedSources d.store ((current.filter (fun p => p.1 = subjectKey)).map Prod.snd) subjectKey owner
          scopeStoreIds
        let p := { d.payload with override := some ⟨subjectKey, target, owner, cited, scopeStoreIds = none⟩ }
        let d := ({ d with payload := p }.touchEntities [some target, owner]).touchKey (subjectKey, owner)
        if scopeStoreIds = none then
          let d ← ((activeKeys d.store).filter (sameSlot subjectKey owner)).foldlM (overrideSlot c subjectKey owner) d
          newKey (overrideRow subjectKey owner target cited) d
        else .ok d

def overrideKey (c : Context) (subjectKey : String) (entityId : EntityId) (scopeStoreIds : Option (List Int))
    (owner : Option EntityId) (d : Draft) : Except Refusal Draft :=
  keyHeld (overrideKeyBody c subjectKey entityId scopeStoreIds owner d)

/-! ## Undo -/

def Touches.meet (a b : Touches) : Bool :=
  a.entities.any (fun x => x ∈ b.entities) || a.aliases.any (fun x => x ∈ b.aliases) ||
    a.notes.any (fun x => x ∈ b.notes) || a.keys.any (fun x => x ∈ b.keys)

/-- The later events that stand and touch what the event touches, newest first. -/
def blockers (s : Store) (eventId : Nat) (touches : Touches) : List Nat :=
  (s.events.reverse.filter (fun e => eventId < e.eventId && e.op ≠ .undo && e.eventId ∉ undone s &&
    e.payload.elim true (fun p => touches.meet p.touches))).map Event.eventId

/-- `INVERSE_REGISTRY` -/
def hasInverse (op : OpName) : Bool :=
  op ∈ [OpName.createEntity, .addAlias, .retireAlias, .changeKind, .merge, .split, .addNote, .overrideKey]

/-- The active rows of a global override, which a rebuild may have replaced. -/
def ownedKeys (s : Store) (o : Override) : Except Refusal (List Nat) :=
  match (activeKeys s).filter (fun r => sameSlot o.subjectKey o.ownerEntityId r && r.method = .override) with
  | [] => .ok []
  | rows => do
    let target ← canonical (liveEntities s) o.entityId
    .ok ((rows.filter (fun r => r.entityId = target && r.sourceStoreIds.all (fun x => x ∈ o.scopeStoreIds))).map
      KeyRow.keyId)

/-- The key rows the inverse retires. -/
def inverseKeys (s : Store) (p : Payload) : Except Refusal (List Nat) :=
  match p.override with
  | some o =>
    if o.globalOverride then (ownedKeys s o).map (fun owned => (p.created.keys ++ owned).eraseDups)
    else .ok p.created.keys
  | none => .ok p.created.keys

theorem lawfulBEq_source : LawfulBEq (String × Int) := inferInstance

attribute [local instance] lawfulBEq_source

/-- A retired key row comes back only if its slot is free and the rows to be
retired still bind its current sources. -/
def restorable (env : Env) (s : Store) (created : List Nat) (ch : Change Nat (Option Rat)) : Except Refusal Bool :=
  if ch.before = none then do
    let row ← getLiveKey s ch.id
    let slot := (activeKeys s).filter (sameSlot row.subjectKey row.ownerEntityId)
    if slot.any (fun k => k.keyId ∉ created) then .error .keyHeld
    else
      let current ← keySources env trusted
      .ok (row.sourceStoreIds ≠ [] && row.sourceStoreIds.all (fun x =>
        slot.any (fun k => k.keyId ∈ created && x ∈ k.sourceStoreIds) && (row.subjectKey, x) ∈ current))
  else .ok true

def safeChanges (env : Env) (s : Store) (created : List Nat) : List FieldChange → Except Refusal (List FieldChange)
  | [] => .ok []
  | .key ch :: rest => do
    let keep ← restorable env s created ch
    let rest ← safeChanges env s created rest
    .ok (if keep then .key ch :: rest else rest)
  | change :: rest => do
    let rest ← safeChanges env s created rest
    .ok (change :: rest)

/-- Another active holder of the platform id of this alias. -/
def otherHolder (env : Env) (s : Store) (created : List Nat) (row : Alias) : Option Alias :=
  if row.aliasKind = .platformId then
    (aliasesByNorm env s row.aliasNorm).find? (fun h => h.aliasKind = .platformId && h.aliasId ∉ created)
  else none

/-- A platform id that another entity holds now is not restored. -/
def checkHolders (env : Env) (s : Store) (created : List Nat) : List FieldChange → Except Refusal Unit
  | [] => .ok ()
  | .aliasRow ch :: rest =>
    if ch.before = none then do
      let row ← getLiveAlias env s ch.id
      match otherHolder env s created row with
      | some holder => .error (.platformIdHeld holder.entityId)
      | none => checkHolders env s created rest
    else checkHolders env s created rest
  | _ :: rest => checkHolders env s created rest

def FieldChange.isAlias : FieldChange → Bool
  | .aliasRow _ => true
  | _ => false

/-- Last change first, and the aliases before the rest. -/
def inverseOrder (changes : List FieldChange) : List FieldChange :=
  changes.reverse.filter FieldChange.isAlias ++ changes.reverse.filter (fun ch => !ch.isAlias)

def restore (c : Context) (d : Draft) : FieldChange → Except Refusal Draft
  | .entity ch => projectEntity ch.id ch.before d
  | .aliasRow ch => projectAlias c ch.id (.value ch.before) d
  | .note ch => projectNote c ch.id ch.before d
  | .key ch => projectKey c ch.id (.value ch.before) d

/-- `_inverse`: retire what was created, then restore. -/
def inverse (c : Context) (created : Created) (changes : List FieldChange) (d : Draft) : Except Refusal Draft := do
  let d ← created.aliases.foldlM (fun d id => projectAlias c id .now d) d
  let d ← created.keys.foldlM (fun d id => projectKey c id .now d) d
  (inverseOrder changes).foldlM (restore c) d

/-- The current derivation of the slot an owner's override leaves. -/
def derivation (s : Store) (p : Payload) : Option KeyRow :=
  match p.override with
  | some o => if o.globalOverride then
        o.ownerEntityId.bind (fun owner => (ownerAliasRows s o.subjectKey owner).head?) else none
  | none => none

/-- A restored derived row that is out of date is replaced. -/
def refreshRow (c : Context) (latest : KeyRow) (d : Draft) (row : KeyRow) : Except Refusal Draft := do
  let d ← projectKey c row.keyId .now d
  newKey { latest with retiredAt := none } d

def refresh (c : Context) (latest : Option KeyRow) (d : Draft) : Except Refusal Draft :=
  match latest with
  | none => .ok d
  | some latest => ((activeKeys d.store).filter (fun r => sameSlot latest.subjectKey latest.ownerEntityId r &&
      r.method = .aliasMatch && (r.entityId ≠ latest.entityId || r.sourceStoreIds ≠ latest.sourceStoreIds))).foldlM
        (refreshRow c latest) d

/-- What an undo has checked before it writes: the created rows and the changes
to take back. -/
def undoPlan (c : Context) (eventId : Nat) (s : Store) : Except Refusal (Event × Created × List FieldChange) :=
  match s.events.find? (fun e => e.eventId = eventId) with
  | none => .error .notFound
  | some target =>
    if target.op = .undo then .error .isUndo
    else if eventId ∈ undone s then .error .alreadyUndone
    else
      match target.payload with
      | none => .error .unsupportedOp
      | some p =>
        if hasInverse target.op = false then .error .unsupportedOp
        else if blockers s eventId p.touches ≠ [] then .error (.dependentEvents (blockers s eventId p.touches))
        else do
          let keys ← inverseKeys s p
          let changes ← safeChanges c.env s keys p.changes
          checkHolders c.env s p.created.aliases changes
          .ok (target, { p.created with keys := keys }, changes)

def undoBody (c : Context) (latest : Option KeyRow) (created : Created) (changes : List FieldChange) (s : Store) :
    Except Refusal Draft := do
  let d ← inverse c created changes { store := s }
  refresh c latest d

/-- A key clash is refused for an override and raised otherwise. -/
def refuseClash (op : OpName) (body : Except Refusal Draft) : Except Refusal Draft :=
  if op = .overrideKey then keyHeld body else body

def undo (c : Context) (eventId : Nat) (s : Store) : Except Refusal Store := do
  let (target, created, changes) ← undoPlan c eventId s
  let d ← refuseClash target.op (undoBody c (target.payload.bind (derivation s)) created changes s)
  .ok (appendEvent .undo d.payload (some eventId) d.store)

/-! ## Replay -/

structure Projection where
  entities : EntityId → Option (Status × Option EntityId)
  aliases : Nat → Option (Option Rat)
  notes : NoteId → Option (Option NoteId)

def Projection.empty : Projection := ⟨fun _ => none, fun _ => none, fun _ => none⟩

def Projection.create (r : Projection) (created : Created) : Projection where
  entities := created.entities.foldl (fun m id => Function.update m id (some (.active, none))) r.entities
  aliases := created.aliases.foldl (fun m id => Function.update m id (some none)) r.aliases
  notes := created.notes.foldl (fun m id => Function.update m id (some none)) r.notes

def Projection.change (r : Projection) : FieldChange → Projection
  | .entity ch => { r with entities := Function.update r.entities ch.id (some ch.after) }
  | .aliasRow ch => { r with aliases := Function.update r.aliases ch.id (some ch.after) }
  | .note ch => { r with notes := Function.update r.notes ch.id (some ch.after) }
  | .key _ => r

def Projection.event (r : Projection) (p : Payload) : Projection :=
  p.changes.foldl Projection.change (r.create p.created)

/-- The projected fields from the event payloads alone. -/
def replayProjection (s : Store) : Except Refusal Projection :=
  s.events.foldlM (fun r e => e.payload.elim (.error .lacksPayload) (fun p => .ok (r.event p))) Projection.empty

/-! ## Runs -/

inductive Op where
  | createEntity (displayName : String) (kind : Kind)
  | addAlias (entityId : EntityId) (display : String) (options : AliasOptions)
  | retireAlias (aliasId : Nat)
  | addNote (text : String) (options : NoteOptions)
  | changeKind (entityId : EntityId) (kind : Kind)
  | merge (into fromEntity : EntityId) (allowKindMismatch : Bool)
  | split (entityId : EntityId) (aliasIds : List Nat) (noteIds : List NoteId) (displayName : String)
      (kind : Option Kind)
  | attachOrCreate (pid displayName : String) (verified : Bool)
  | overrideKey (subjectKey : String) (entityId : EntityId) (scopeStoreIds : Option (List Int))
      (owner : Option EntityId)
  | undo (eventId : Nat)
  deriving DecidableEq, Repr

inductive Returned where
  | entity (id : EntityId)
  | aliasRow (id : Nat)
  | note (id : NoteId)
  | event (id : Nat)
  deriving DecidableEq, Repr

/-- `_operation`: run the body on an empty payload and log it. -/
def logged (name : OpName) (body : Draft → Except Refusal Draft) (returned : Returned) (s : Store) :
    Except Refusal (Store × Returned) := do
  let d ← body { store := s }
  .ok (appendEvent name d.payload none d.store, returned)

/-- `attach_or_create_for_platform_id`: a holder is returned and nothing is logged. -/
def attachOrCreate (c : Context) (pid displayName : String) (verified : Bool) (s : Store) :
    Except Refusal (Store × Returned) := do
  let pid ← platformId c.env.unicode pid
  if verified = false then .error .unverifiedPlatformId
  else
    match ← holderForPlatformId c.env s pid with
    | some holder => .ok (s, .entity holder)
    | none => logged .createEntity (createForPlatformId c pid displayName) (.entity c.newEntity) s

def execute (c : Context) (s : Store) : Op → Except Refusal (Store × Returned)
  | .createEntity displayName kind => logged .createEntity (createEntity c displayName kind) (.entity c.newEntity) s
  | .addAlias entityId display options => logged .addAlias (addAlias c entityId display options)
        (.aliasRow s.nextAlias) s
  | .retireAlias aliasId => logged .retireAlias (retireAlias c aliasId) (.event s.nextEvent) s
  | .addNote text options => logged .addNote (addNote c text options) (.note (c.newNote 0)) s
  | .changeKind entityId kind => logged .changeKind (changeKind entityId kind) (.event s.nextEvent) s
  | .merge into fromEntity allow => logged .merge (merge into fromEntity allow) (.event s.nextEvent) s
  | .split entityId aliasIds noteIds displayName kind =>
    logged .split (split c entityId aliasIds noteIds displayName kind) (.entity c.newEntity) s
  | .attachOrCreate pid displayName verified => attachOrCreate c pid displayName verified s
  | .overrideKey subjectKey entityId scopeStoreIds owner =>
    logged .overrideKey (overrideKey c subjectKey entityId scopeStoreIds owner) (.event s.nextEvent) s
  | .undo eventId => (undo c eventId s).map (fun s' => (s', .event s.nextEvent))

/-- A call: the transaction is kept, or rolled back with a refusal. -/
def step (c : Context) (s : Store) (op : Op) : Store × Except Refusal Returned :=
  match execute c s op with
  | .ok (s', returned) => (s', .ok returned)
  | .error refusal => (s, .error refusal)

/-- The store after a sequence of calls. -/
def run (s : Store) (calls : List (Context × Op)) : Store := calls.foldl (fun s call => (step call.1 s call.2).1) s

/-- An empty scope; other profiles of the database may have used ids. -/
def emptyScope (nextAlias nextKey nextEvent : Nat) : Store where
  nextAlias := nextAlias
  nextKey := nextKey
  nextEvent := nextEvent

end EntityStore
