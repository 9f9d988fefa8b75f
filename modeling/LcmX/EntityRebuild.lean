import LcmX.EntityOps
import LcmX.Lib.KeyedTable

/-!
# Rebuilding the key index

The current assertions, the aliases and the standing overrides ask for one row
in each slot. The active rows are brought to them, and no event is appended.
-/
namespace EntityStore

/-- A subject key and the owner it is relative to. -/
abbrev Slot := String × Option EntityId

def KeyRow.slot (r : KeyRow) : Slot := (r.subjectKey, r.ownerEntityId)

/-- The entity and the sources of a derived row. -/
abbrev Derivation := EntityId × List Int

def KeyRow.derivation (r : KeyRow) : Derivation := (r.entityId, r.sourceStoreIds)

/-- `[entity, method, sources]` -/
structure Wanted where
  entityId : EntityId
  method : Method
  sources : List Int
  deriving DecidableEq, Repr

/-- What the caller brings: the sender of a message with two flags, and the
entities of the user and of the assistant. -/
structure Lookups where
  senderLookup : Option (Int → Option (EntityId × Bool × Bool)) := none
  profiles : Option (EntityId × EntityId) := none

/-- What a rebuild has read before it writes. -/
structure Basis where
  unicode : Unicode
  lookups : Lookups
  view : View
  sources : List (String × Int)

namespace Basis

/-! ## Derived rows -/

/-- The sender of the source, when both flags are set and it is in the map. -/
def sender (b : Basis) (source : Int) : Option EntityId :=
  match b.lookups.senderLookup.bind (fun lookup => lookup source) with
  | none => none
  | some (id, first, second) => if first && second && (b.view.canonical.lookup id).isSome then some id else none

def profileCandidates (b : Basis) (ns : String) : List EntityId :=
  b.lookups.profiles.elim [] (fun p => [if ns = "assistant" then p.2 else p.1])

/-- The owner that the source gives the key, and the entities the key may stand for. -/
def attribution (b : Basis) (subject : String) (source : Int) : Option EntityId × List EntityId :=
  let ns := namespaceOf subject
  let candidates := if isProfile ns then b.profileCandidates ns else keyCandidates b.unicode b.view subject none
  if ns = "user" ∨ b.view.relationGroup b.unicode (valueOf subject) ≠ [] then
    match b.sender source with
    | some owner => (some owner,
        if ns = "user" then (b.view.canonical.lookup owner).toList
        else keyCandidates b.unicode b.view subject (some owner))
    | none => (none, if ns ≠ "user" ∨ b.lookups.profiles = none then [] else candidates)
  else (none, candidates)

def fitting (b : Basis) (subject : String) (candidates : List EntityId) : List EntityId :=
  candidates.filter (fun key => (b.view.cards.lookup key).any
    (fun card => some card.kind = namespaceKind (namespaceOf subject)))

/-- `desired.setdefault(slot, [entity, "alias_match", set()])[2].add(source)` -/
def propose (slot : Slot) (entityId : EntityId) (source : Int) (desired : KeyedTable Slot Wanted) :
    KeyedTable Slot Wanted :=
  (desired.insert slot ⟨entityId, .aliasMatch, []⟩).modify slot (fun w => { w with sources := push w.sources source })

def derive (b : Basis) (desired : KeyedTable Slot Wanted) (p : String × Int) : KeyedTable Slot Wanted :=
  match b.fitting p.1 (b.attribution p.1 p.2).2 with
  | [only] => propose (p.1, (b.attribution p.1 p.2).1) only p.2 desired
  | _ => desired

/-- `alias_desired` -/
def aliasDesired (b : Basis) : KeyedTable Slot Wanted := b.sources.foldl b.derive .empty

/-- `owner_sources` -/
def ownerSources (b : Basis) (subject : String) (owner : EntityId) : List Int :=
  (b.sources.filter (fun p => p.1 = subject && (b.attribution p.1 p.2).1 = some owner)).map Prod.snd

/-! ## Overrides -/

/-- The reviewed sources that are current and, for an owner, still attributed to it. -/
def bound (b : Basis) (o : Override) : List Int :=
  (b.sources.filter (fun p => p.1 = o.subjectKey && p.2 ∈ o.scopeStoreIds &&
    o.ownerEntityId.all (fun owner => p.2 ∈ b.ownerSources o.subjectKey owner))).map Prod.snd

/-- The row a standing global override asks for. -/
def overrideWanted (b : Basis) (o : Override) : Option Wanted :=
  match onCard b.view (b.view.canonical.lookup o.entityId) with
  | none => none
  | some target => if o.globalOverride && b.bound o ≠ [] then some ⟨target, .override, b.bound o⟩ else none

/-- The derivation that an owner's override hides: of the aliases, or of the row before. -/
def hidden (b : Basis) (prior : Option Derivation) (subject : String) (owner : EntityId) : Option Derivation :=
  match b.aliasDesired.get (subject, some owner) with
  | some w => some (w.entityId, w.sources)
  | none => prior.map (fun p => (p.1, b.ownerSources subject owner))

end Basis

/-- Two lists of the same sources. -/
def sameSources (a b : List Int) : Bool := a.all (fun x => x ∈ b) && b.all (fun x => x ∈ a)

def KeyRow.derivedAs (r : KeyRow) (w : Derivation) : Bool := r.entityId = w.1 && sameSources r.sourceStoreIds w.2

def KeyRow.fits (r : KeyRow) (w : Wanted) : Bool := r.derivedAs (w.entityId, w.sources) && r.method = w.method

def wantedRow (slot : Slot) (w : Wanted) (keyId : Nat) : KeyRow where
  keyId := keyId
  subjectKey := slot.1
  ownerEntityId := slot.2
  entityId := w.entityId
  method := w.method
  sourceStoreIds := sortedSources w.sources

/-! ## The rebuild -/

structure Rebuilding where
  store : Store
  desired : KeyedTable Slot Wanted
  writes : Nat := 0
  -- readings of the clock so far
  ticks : Nat := 0

namespace Rebuilding

def retire (now : Nat → Rat) (st : Rebuilding) (row : KeyRow) : Except Refusal Rebuilding := do
  let s ← setKeyRetired row (some (now st.ticks)) st.store
  .ok { st with store := s, ticks := st.ticks + 1 }

/-- A retired row is added behind the active ones of the slot, which make room for it. -/
def shadow (now : Nat → Rat) (slot : Slot) (w : Derivation) (st : Rebuilding) : Except Refusal Rebuilding := do
  let held := (activeKeys st.store).filter (sameSlot slot.1 slot.2)
  let st ← held.foldlM (retire now) st
  let row := wantedRow slot ⟨w.1, .aliasMatch, w.2⟩ st.store.nextKey
  let s ← insertKey row st.store
  let st ← retire now { st with store := s } row
  let s ← held.foldlM (fun s row => setKeyRetired row none s) st.store
  .ok { st with store := s, writes := st.writes + (2 + 2 * held.length) }

/-- The active slot will hold an override: what it hides is kept as a retired row. -/
def keepDerivation (b : Basis) (now : Nat → Rat) (subject : String) (owner : EntityId)
    (st : Rebuilding) : Except Refusal Rebuilding :=
  let prior := (ownerAliasRows st.store subject owner).head?
  match b.hidden (prior.map KeyRow.derivation) subject owner with
  | none => .ok st
  | some w => if prior.any (fun r => r.derivedAs w) then .ok st else shadow now (subject, some owner) w st

def applyOverride (b : Basis) (now : Nat → Rat) (st : Rebuilding) (o : Override) : Except Refusal Rebuilding :=
  match b.overrideWanted o with
  | none => .ok st
  | some wanted => do
    let st ← match o.ownerEntityId with
      | none => .ok st
      | some owner => keepDerivation b now o.subjectKey owner st
    .ok { st with desired := st.desired.assign (o.subjectKey, o.ownerEntityId) wanted }

/-- A row that is asked for stays; another one is retired. -/
def reconcile (now : Nat → Rat) (st : Rebuilding) (row : KeyRow) : Except Refusal Rebuilding :=
  if (st.desired.get row.slot).any row.fits then
    .ok { st with desired := st.desired.delete (fun slot => slot = row.slot) }
  else do
    let st ← retire now st row
    .ok { st with writes := st.writes + 1 }

def add (st : Rebuilding) (p : Slot × Wanted) : Except Refusal Rebuilding := do
  let s ← keyHeld (insertKey (wantedRow p.1 p.2 st.store.nextKey) st.store)
  .ok { st with store := s, writes := st.writes + 1 }

end Rebuilding

def basis (env : Env) (lookups : Lookups) (s : Store) : Except Refusal Basis := do
  let sources ← keySources env trusted
  let view ← resolvedView env trusted none s
  .ok ⟨env.unicode, lookups, view, sources⟩

open Rebuilding in
/-- The three loops: overrides, active rows, rows that are missing. -/
def rebuildWith (b : Basis) (now : Nat → Rat) (s : Store) : Except Refusal (Store × Nat) := do
  let st ← (overrides s).foldlM (applyOverride b now) { store := s, desired := b.aliasDesired }
  let st ← (activeKeys st.store).foldlM (reconcile now) st
  let st ← st.desired.rows.foldlM add st
  .ok (st.store, st.writes)

/-- `rebuild_entity_keys`: the store and the number of writes. -/
def rebuildEntityKeys (env : Env) (now : Nat → Rat) (lookups : Lookups) (s : Store) : Except Refusal (Store × Nat) := do
  let b ← basis env lookups s
  rebuildWith b now s

end EntityStore
