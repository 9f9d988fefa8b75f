import LcmX.Lib.ChangeLog
import LcmX.Lib.Fallible

/-!
# The entity store

One profile's entities, aliases, notes, bridge keys and memory events. An id
`ent_` or `note_` with its 32 hex digits is the number the digits write; alias,
key and event ids are counted up and never reused. What the rows cite lives in
other tables: the messages and the host file revisions of the environment.
-/
namespace EntityStore

open ChangeLog

abbrev EntityId := Nat

abbrev NoteId := Nat

abbrev RevisionId := Nat

inductive Kind where
  | person | agent | org | project | place | thing | topic | other
  deriving DecidableEq, Repr

inductive Status where
  | active | merged | forgotten
  deriving DecidableEq, Repr

inductive AliasKind where
  | name | nickname | relationPhrase | platformId
  deriving DecidableEq, Repr

inductive NoteKind where
  | relationship | preference | fact | context | instruction | retraction | history
  deriving DecidableEq, Repr

inductive Author where
  | agent | consolidator | user | hostMemoryFile | detector
  deriving DecidableEq, Repr

inductive Method where
  | aliasMatch | override
  deriving DecidableEq, Repr

structure Entity where
  entityId : EntityId
  kind : Kind
  displayName : String
  status : Status := .active
  mergedInto : Option EntityId := none
  deriving DecidableEq, Repr

structure Alias where
  aliasId : Nat
  entityId : EntityId
  aliasNorm : String
  aliasDisplay : String
  aliasKind : AliasKind
  ownerEntityId : Option EntityId := none
  sourceStoreIds : List Int := []
  retiredAt : Option Rat := none
  deriving DecidableEq, Repr

structure Note where
  noteId : NoteId
  entityId : Option EntityId := none
  aboutEntityId : Option EntityId := none
  kind : NoteKind := .fact
  text : String
  assertedByEntityId : Option EntityId := none
  cites : List Int := []
  citesFileRevisions : List RevisionId := []
  author : Author := .agent
  supersededBy : Option NoteId := none
  retractsNoteId : Option NoteId := none
  retractsStoreIds : List Int := []
  deriving DecidableEq, Repr

/-- A row of the bridge to the assertion subjects. -/
structure KeyRow where
  keyId : Nat
  subjectKey : String
  ownerEntityId : Option EntityId := none
  entityId : EntityId
  method : Method
  sourceStoreIds : List Int := []
  retiredAt : Option Rat := none
  deriving DecidableEq, Repr

/-! ## Events -/

/-- The operations an event may name. -/
inductive OpName where
  | createEntity | addAlias | retireAlias | changeKind | merge | split | addNote | supersedeNote | forget
  | overrideKey | undo | hostFileRevision | restoreAlias | setEntityStatus
  deriving DecidableEq, Repr

/-- The ids of the rows an operation made. -/
structure Created where
  entities : List EntityId := []
  aliases : List Nat := []
  notes : List NoteId := []
  keys : List Nat := []
  deriving DecidableEq, Repr

/-- The projected fields an operation wrote, with the values before and after. -/
inductive FieldChange where
  | entity (c : Change EntityId (Status × Option EntityId))
  | aliasRow (c : Change Nat (Option Rat))
  | note (c : Change NoteId (Option NoteId))
  | key (c : Change Nat (Option Rat))
  deriving DecidableEq, Repr

/-- An alias is touched by its id, a platform id by its text as well. -/
inductive AliasTouch where
  | id (n : Nat)
  | norm (text : String)
  deriving DecidableEq, Repr

structure Touches where
  entities : List EntityId := []
  aliases : List AliasTouch := []
  notes : List NoteId := []
  keys : List (String × Option EntityId) := []
  deriving DecidableEq, Repr

structure KindChange where
  entityId : EntityId
  before : Kind
  after : Kind
  deriving DecidableEq, Repr

structure Override where
  subjectKey : String
  entityId : EntityId
  ownerEntityId : Option EntityId
  scopeStoreIds : List Int
  globalOverride : Bool
  deriving DecidableEq, Repr

structure Payload where
  created : Created := {}
  changes : List FieldChange := []
  touches : Touches := {}
  kind : Option KindChange := none
  override : Option Override := none
  deriving DecidableEq, Repr

/-- `payload` is `none` for the events of bare store primitives, whose payload
has none of the fields the operations read. -/
structure Event where
  eventId : Nat
  op : OpName
  payload : Option Payload
  targetEventId : Option Nat := none
  deriving DecidableEq, Repr

structure Store where
  entities : List Entity := []
  aliases : List Alias := []
  notes : List Note := []
  keys : List KeyRow := []
  events : List Event := []
  nextAlias : Nat := 1
  nextKey : Nat := 1
  nextEvent : Nat := 1
  deriving DecidableEq, Repr

/-! ## What is read from other tables -/

/-- What Python's Unicode tables decide. -/
structure Unicode where
  nfkc : String → String
  casefold : String → String
  lower : String → String
  isSpace : Char → Bool
  isPunctuation : Char → Bool

structure Message where
  storeId : Int
  accessScope : Option String := none
  deriving DecidableEq, Repr

/-- The assertion family: absent, not verified, or the subject and source of each
assertion of the current extraction whose source row stands. -/
inductive Assertions where
  | absent
  | unverified
  | rows (current : List (String × Int))
  deriving DecidableEq, Repr

structure Env where
  unicode : Unicode
  messages : List Message := []
  revisions : List RevisionId := []
  assertions : Assertions := .absent

/-! ## Text -/

/-- `value.partition(":")`, as the two sides of the first colon. -/
def splitColon (text : String) : Option (String × String) :=
  match text.toList.dropWhile (fun c => c ≠ ':') with
  | [] => none
  | _ :: rest => some (String.ofList (text.toList.takeWhile (fun c => c ≠ ':')), String.ofList rest)

def namespaceOf (subjectKey : String) : String := (splitColon subjectKey).elim subjectKey Prod.fst

def valueOf (subjectKey : String) : String := (splitColon subjectKey).elim "" Prod.snd

def normalizeAlias (u : Unicode) (value : String) : String :=
  let words := ((u.casefold (u.nfkc value)).toList.splitOnP u.isSpace).filter (fun w => !w.isEmpty)
  let drop := fun c => u.isSpace c || u.isPunctuation c
  String.ofList ((([' '].intercalate words).dropWhile drop).reverse.dropWhile drop).reverse

def normalizePlatformId (u : Unicode) (platform identifier : String) : String := u.lower platform ++ ":" ++ identifier

/-! ## Visibility -/

/-- Who asks: no principal is the trusted reader. -/
structure Access where
  principal : Option String := none
  owner : Bool := false
  deriving DecidableEq, Repr

def trusted : Access := {}

def messageVisible (env : Env) (access : Access) (id : Int) : Bool :=
  match env.messages.find? (fun m => m.storeId = id) with
  | none => false
  | some m =>
    match access.principal, m.accessScope with
    | some p, some stamp => stamp = p
    | _, _ => true

def revisionVisible (env : Env) (access : Access) (id : RevisionId) : Bool :=
  id ∈ env.revisions && (access.principal.isNone || access.owner)

/-- `EntityStore._visible` -/
def visible (env : Env) (access : Access) (sources : List Int) (revisions : List RevisionId)
    (emptyOwner : Bool) : Bool :=
  sources.all (messageVisible env access) && revisions.all (revisionVisible env access) &&
    (access.principal.isNone || 0 < sources.length + revisions.length || (emptyOwner && access.owner))

/-- A principal without a name reads nothing. -/
def named (access : Access) : Bool := access.principal ≠ some ""

def aliasVisible (env : Env) (access : Access) (a : Alias) : Bool :=
  named access && visible env access a.sourceStoreIds [] true

def noteVisible (env : Env) (access : Access) (n : Note) : Bool :=
  named access && visible env access n.cites n.citesFileRevisions false

def keyVisible (env : Env) (access : Access) (k : KeyRow) : Bool :=
  named access && visible env access k.sourceStoreIds [] false

def getAlias (env : Env) (s : Store) (id : Nat) : Option Alias :=
  s.aliases.find? (fun a => a.aliasId = id && aliasVisible env trusted a)

def getNote (env : Env) (s : Store) (id : NoteId) : Option Note :=
  s.notes.find? (fun n => n.noteId = id && noteVisible env trusted n)

def aliasesByNorm (env : Env) (s : Store) (norm : String) : List Alias :=
  s.aliases.filter (fun a => a.aliasNorm = norm && a.retiredAt = none && aliasVisible env trusted a)

/-! ## Writes -/

/-- Why a call did not commit: a refusal with its reason, or an exception. -/
inductive Refusal where
  | notFound | invalidPlatformId | missingOwner | unverifiedPlatformId | platformIdHeld (holder : EntityId)
  | sameCanonical | forgotten | kindMismatch | notActive | emptySelection | foreignRow | unbridgedNamespace
  | ambiguousKey | keyHeld | isUndo | alreadyUndone | unsupportedOp | dependentEvents (blocking : List Nat)
  -- `EntityIntegrityError`
  | hopLimit | assertionsUnverified | lacksPayload
  -- `sqlite3.IntegrityError`, of the alias index or another, and `TypeError` where a row to read is not visible
  | constraint | aliasIndex | missingRow
  deriving DecidableEq, Repr

def entityColumn : Column Entity EntityId (Status × Option EntityId) where
  key := Entity.entityId
  get := fun r => (r.status, r.mergedInto)
  set := fun v r => { r with status := v.1, mergedInto := v.2 }
  key_set := fun _ _ => rfl
  get_set := fun _ _ => rfl
  set_get := fun _ => rfl
  set_set := fun _ _ _ => rfl

def aliasColumn : Column Alias Nat (Option Rat) where
  key := Alias.aliasId
  get := Alias.retiredAt
  set := fun v r => { r with retiredAt := v }
  key_set := fun _ _ => rfl
  get_set := fun _ _ => rfl
  set_get := fun _ => rfl
  set_set := fun _ _ _ => rfl

def noteColumn : Column Note NoteId (Option NoteId) where
  key := Note.noteId
  get := Note.supersededBy
  set := fun v r => { r with supersededBy := v }
  key_set := fun _ _ => rfl
  get_set := fun _ _ => rfl
  set_get := fun _ => rfl
  set_set := fun _ _ _ => rfl

def keyColumn : Column KeyRow Nat (Option Rat) where
  key := KeyRow.keyId
  get := KeyRow.retiredAt
  set := fun v r => { r with retiredAt := v }
  key_set := fun _ _ => rfl
  get_set := fun _ _ => rfl
  set_get := fun _ => rfl
  set_set := fun _ _ _ => rfl

/-- `idx_lcm_entity_platform_id`: the rows the unique index covers. -/
def Alias.indexed (a : Alias) : Bool := a.aliasKind = .platformId && a.retiredAt = none

/-- Another row holds the index entry of this one. -/
def indexConflict (s : Store) (a : Alias) : Bool :=
  a.aliasKind = .platformId && s.aliases.any (fun b => b.indexed && b.aliasId ≠ a.aliasId && b.aliasNorm = a.aliasNorm)

/-- `idx_lcm_entity_key_active` -/
def keyConflict (s : Store) (k : KeyRow) : Bool :=
  s.keys.any (fun b => b.retiredAt = none && b.keyId ≠ k.keyId && b.subjectKey = k.subjectKey &&
    b.ownerEntityId = k.ownerEntityId)

def insertEntity (row : Entity) (s : Store) : Except Refusal Store :=
  if s.entities.any (fun r => r.entityId = row.entityId) then .error .constraint
  else .ok { s with entities := s.entities ++ [row] }

/-- The row gets the next id. -/
def insertAlias (row : Alias) (s : Store) : Except Refusal Store :=
  if indexConflict s { row with aliasId := s.nextAlias } then .error .aliasIndex
  else .ok { s with aliases := s.aliases ++ [{ row with aliasId := s.nextAlias }], nextAlias := s.nextAlias + 1 }

/-- A note cites something. -/
def insertNote (row : Note) (s : Store) : Except Refusal Store :=
  if s.notes.any (fun r => r.noteId = row.noteId) || (row.cites.isEmpty && row.citesFileRevisions.isEmpty) then
    .error .constraint
  else .ok { s with notes := s.notes ++ [row] }

def insertKey (row : KeyRow) (s : Store) : Except Refusal Store :=
  if keyConflict s { row with keyId := s.nextKey } then .error .constraint
  else .ok { s with keys := s.keys ++ [{ row with keyId := s.nextKey }], nextKey := s.nextKey + 1 }

def setEntityStatus (id : EntityId) (v : Status × Option EntityId) (s : Store) : Store :=
  { s with entities := entityColumn.write id v s.entities }

def setNoteSuperseded (id : NoteId) (v : Option NoteId) (s : Store) : Store :=
  { s with notes := noteColumn.write id v s.notes }

def setAliasRetired (row : Alias) (v : Option Rat) (s : Store) : Except Refusal Store :=
  if v = none && indexConflict s row then .error .aliasIndex
  else .ok { s with aliases := aliasColumn.write row.aliasId v s.aliases }

def setKeyRetired (row : KeyRow) (v : Option Rat) (s : Store) : Except Refusal Store :=
  if v = none && keyConflict s row then .error .constraint
  else .ok { s with keys := keyColumn.write row.keyId v s.keys }

def appendEvent (op : OpName) (p : Payload) (target : Option Nat) (s : Store) : Store :=
  { s with
    events := s.events ++ [⟨s.nextEvent, op, some p, target⟩]
    nextEvent := s.nextEvent + 1 }

end EntityStore
