import Mathlib.Data.Finset.Image

/-!
# The access context

The immutable authority envelope of the Teams seam: its fields, the effective
allowlists read out of its narrowing tokens, the narrowing operation and the
subset test that is meant to prove a narrowing.

Timestamps are instants, since a value without a time zone is read as UTC. The
narrowing tokens are raw strings, cut at the first colon as the source does.
-/
namespace AccessContext

def accessContextContractRevision : String := "v1"

inductive ActorType where
  | human
  | agent
  | service
  deriving DecidableEq, Repr

/-- A string argument is one string or an iterable of strings. -/
inductive Strings where
  | one (value : String)
  | many (values : List String)
  deriving DecidableEq, Repr

def Strings.freeze : Strings → Finset String
  | .one value => {value}
  | .many values => values.toFinset

def freezeStrings : Option Strings → Finset String
  | none => ∅
  | some value => value.freeze

structure ScopeMismatchError where
  message : String
  deriving DecidableEq, Repr

/-- `if cond: raise ScopeMismatchError(message)`. -/
def reject (cond : Prop) [Decidable cond] (message : String) : Except ScopeMismatchError Unit :=
  if cond then .error ⟨message⟩ else .ok ()

/-! ## Tokens -/

/-- `token.partition(":")[0]` -/
def dimension (token : String) : String :=
  String.ofList (token.toList.takeWhile (fun c => c ≠ ':'))

/-- `token.partition(":")[2]` -/
def value (token : String) : String :=
  String.ofList ((token.toList.dropWhile (fun c => c ≠ ':')).drop 1)

def modelledNarrowingDimensions : Finset String := {"operation", "collection", "audience"}

def dimensionValues (tokens : Finset String) (dim : String) : Finset String :=
  (tokens.filter (fun t => (dim ++ ":").toList <+: t.toList ∧ value t ≠ "")).image value

/-! ## The context -/

structure AccessContextV1 where
  contractRevision : String := accessContextContractRevision
  contextId : String := ""
  requestId : String := ""
  sourceKind : String := ""
  authenticatedTransport : String := ""
  deploymentId : String := ""
  tenantId : String := ""
  principalId : String := ""
  actorType : ActorType := .human
  profileId : String := ""
  profileIncarnation : String := ""
  sessionId : String := ""
  sessionOwnerPrincipalId : String := ""
  conversationId : String := ""
  conversationLane : String := ""
  defaultWriteCollectionId : String := ""
  readPolicyRef : String := ""
  grants : Finset String := ∅
  policyRevision : Int := 0
  membershipRevision : Int := 0
  revocationEpoch : Int := 0
  delegationChain : List String := []
  delegatedBy : String := ""
  audience : Finset String := ∅
  issuedAt : Int
  expiresAt : Int
  narrowing : Finset String := ∅
  ownershipGeneration : Int := 0
  leaseId : String := ""
  leaseGeneration : Int := 0
  deriving DecidableEq

namespace AccessContextV1

/-- Explicit collection restrictions, empty when there are none. -/
def collectionAllowlist (self : AccessContextV1) : Finset String :=
  dimensionValues self.narrowing "collection"

/-- Explicit operation restrictions intersected with the grants. -/
def operationAllowlist (self : AccessContextV1) : Finset String :=
  let explicit := dimensionValues self.narrowing "operation"
  if explicit ≠ ∅ then explicit ∩ self.grants else self.grants

end AccessContextV1

def ungrantedOperations (context : AccessContextV1) : Finset String :=
  dimensionValues context.narrowing "operation" \ context.grants

/-! ## Narrowing -/

/-- The keyword arguments of `narrow`. -/
structure NarrowArgs where
  grants : Option Strings := none
  operations : Option Strings := none
  collections : Option Strings := none
  collectionAllowlist : Option Strings := none
  audience : Option Strings := none
  expiresAt : Option Int := none
  profileId : Option String := none
  sessionId : Option String := none
  conversationId : Option String := none
  defaultWriteCollectionId : Option String := none
  narrowing : Option Strings := none
  policyRevision : Option Int := none
  membershipRevision : Option Int := none
  revocationEpoch : Option Int := none
  deriving DecidableEq, Repr

namespace NarrowArgs

def requestedOperations (args : NarrowArgs) : Option Strings := args.grants.or args.operations

def requestedCollections (args : NarrowArgs) : Option Strings :=
  args.collections.or args.collectionAllowlist

def requestedNarrowing (args : NarrowArgs) : Finset String := freezeStrings args.narrowing

def requestedCollectionTokens (args : NarrowArgs) : Finset String :=
  dimensionValues args.requestedNarrowing "collection"

/-- The dimensions the caller narrows, by a token with a value or by a typed
argument. -/
def narrowedDimensions (args : NarrowArgs) : Finset String :=
  (args.requestedNarrowing.filter (fun t => value t ≠ "")).image dimension
    ∪ (if args.requestedOperations.isSome then {"operation"} else ∅)
    ∪ (if args.requestedCollections.isSome then {"collection"} else ∅)
    ∪ (if args.audience.isSome then {"audience"} else ∅)

end NarrowArgs

namespace AccessContextV1

variable (self : AccessContextV1) (args : NarrowArgs)

def childGrants : Finset String :=
  match args.requestedOperations with
  | none => self.grants
  | some requested => requested.freeze

def childCollections : Finset String :=
  match args.requestedCollections with
  | none => self.collectionAllowlist
  | some requested => requested.freeze

def childAudience : Finset String :=
  match args.audience with
  | none => self.audience
  | some requested => requested.freeze

def childExpiry : Int := args.expiresAt.getD self.expiresAt

def childDefault : String := args.defaultWriteCollectionId.getD self.defaultWriteCollectionId

/-- `child_collections or requested_collection_tokens` -/
def effectiveCollections : Finset String :=
  if self.childCollections args ≠ ∅ then self.childCollections args else args.requestedCollectionTokens

def childNarrowing : Finset String :=
  self.narrowing.filter (fun t => dimension t ∉ args.narrowedDimensions)
    ∪ (if args.requestedOperations.isSome then (self.childGrants args).image (fun x => "operation:" ++ x) else ∅)
    ∪ (if args.requestedCollections.isSome then (self.childCollections args).image (fun x => "collection:" ++ x) else ∅)
    ∪ (if args.audience.isSome then (self.childAudience args).image (fun x => "audience:" ++ x) else ∅)
    ∪ args.requestedNarrowing

def checkOperations : Except ScopeMismatchError Unit := do
  reject (args.grants.isSome ∧ args.operations.isSome ∧ freezeStrings args.grants ≠ freezeStrings args.operations)
    "grants and operations disagree"
  reject (args.requestedOperations.isSome ∧ ¬ self.childGrants args ⊆ self.operationAllowlist)
    "operations would widen the parent allowlist"

def checkCollections : Except ScopeMismatchError Unit := do
  reject (args.requestedCollections.isSome ∧ self.childCollections args = ∅)
    "an empty collection allowlist would read as unrestricted"
  reject (args.requestedCollections.isSome ∧ self.collectionAllowlist ≠ ∅ ∧
      ¬ self.childCollections args ⊆ self.collectionAllowlist)
    "collections would widen the parent allowlist"

def checkAudience : Except ScopeMismatchError Unit := do
  reject (args.audience.isSome ∧ self.childAudience args = ∅) "an empty audience would read as unrestricted"
  reject (args.audience.isSome ∧ self.audience ≠ ∅ ∧ ¬ self.childAudience args ⊆ self.audience)
    "audience would widen the parent audience"

def checkExpiry : Except ScopeMismatchError Unit :=
  reject (self.childExpiry args > self.expiresAt ∨ self.childExpiry args < self.issuedAt)
    "expiry would outlive the parent"

/-- One row of the two loops over the fixed fields. -/
def checkUnchanged {α : Type} [DecidableEq α] (name what : String) (requested : Option α) (current : α) :
    Except ScopeMismatchError Unit :=
  reject (requested.isSome ∧ requested ≠ some current) (name ++ " would change " ++ what)

def checkBindings : Except ScopeMismatchError Unit := do
  checkUnchanged "profile_id" "the binding" args.profileId self.profileId
  checkUnchanged "session_id" "the binding" args.sessionId self.sessionId
  checkUnchanged "conversation_id" "the binding" args.conversationId self.conversationId
  checkUnchanged "policy_revision" "current state" args.policyRevision self.policyRevision
  checkUnchanged "membership_revision" "current state" args.membershipRevision self.membershipRevision
  checkUnchanged "revocation_epoch" "current state" args.revocationEpoch self.revocationEpoch

/-- The default is checked against the collections of the parent or of the typed
argument; the requested tokens are read only where both are empty. -/
def checkDefault : Except ScopeMismatchError Unit :=
  match args.defaultWriteCollectionId with
  | some default => do
    reject (self.collectionAllowlist ≠ ∅ ∧ default ∉ self.collectionAllowlist)
      "default collection would widen the parent allowlist"
    reject (self.collectionAllowlist = ∅ ∧ args.requestedCollections = none ∧
        default ≠ self.defaultWriteCollectionId)
      "default collection would change the parent binding"
    reject (self.effectiveCollections args ≠ ∅ ∧ default ∉ self.effectiveCollections args)
      "default collection would fall outside the child allowlist"
  | none =>
    reject (self.effectiveCollections args ≠ ∅ ∧
        self.defaultWriteCollectionId ∉ self.effectiveCollections args)
      "default collection would fall outside the child allowlist"

/-- The loop over the requested tokens. A frozenset has no order: where tokens
of two dimensions fail, the first test of the loop body names the error here. -/
def checkTokens : Except ScopeMismatchError Unit := do
  reject (∃ t ∈ args.requestedNarrowing, dimension t = "operation" ∧
      value t ∉ (if args.requestedOperations.isSome then self.childGrants args else self.operationAllowlist))
    "narrowing names an operation outside the child allowlist"
  reject (∃ t ∈ args.requestedNarrowing, dimension t = "collection" ∧
      (args.requestedCollections.isSome ∨ self.collectionAllowlist ≠ ∅) ∧ value t ∉ self.childCollections args)
    "narrowing names a collection outside the child allowlist"
  reject (∃ t ∈ args.requestedNarrowing, dimension t = "audience" ∧
      self.audience ≠ ∅ ∧ value t ∉ self.childAudience args)
    "narrowing names an audience outside the child audience"

/-- The context `narrow` builds once every check has passed. -/
def narrowed : AccessContextV1 :=
  { self with
    defaultWriteCollectionId := self.childDefault args
    grants := self.childGrants args
    audience := self.childAudience args
    expiresAt := self.childExpiry args
    narrowing := self.childNarrowing args }

def narrow : Except ScopeMismatchError AccessContextV1 := do
  self.checkOperations args
  self.checkCollections args
  self.checkAudience args
  self.checkExpiry args
  self.checkBindings args
  self.checkDefault args
  self.checkTokens args
  return self.narrowed args

end AccessContextV1

/-! ## The subset test -/

/-- One restricted dimension, where empty means unrestricted. -/
def isNarrower (child parent : Finset String) : Bool :=
  parent = ∅ || (child ≠ ∅ && child ⊆ parent)

def audienceIsNarrower (child parent : AccessContextV1) : Bool :=
  isNarrower child.audience parent.audience &&
    isNarrower (dimensionValues child.narrowing "audience") (dimensionValues parent.narrowing "audience")

/-- A delegated context names its immediate delegator at the end of the chain. -/
def provenanceIsConsistent (context : AccessContextV1) : Bool :=
  if context.delegatedBy ≠ "" then context.delegationChain.getLast? = some context.delegatedBy
  else context.delegationChain = []

/-- The fields a child may not change, in the order they are compared. -/
structure Bindings where
  deploymentId : String
  tenantId : String
  principalId : String
  actorType : ActorType
  profileId : String
  profileIncarnation : String
  sessionId : String
  sessionOwnerPrincipalId : String
  conversationId : String
  conversationLane : String
  readPolicyRef : String
  policyRevision : Int
  membershipRevision : Int
  revocationEpoch : Int
  ownershipGeneration : Int
  leaseId : String
  leaseGeneration : Int
  sourceKind : String
  authenticatedTransport : String
  deriving DecidableEq

def AccessContextV1.bindings (context : AccessContextV1) : Bindings :=
  ⟨context.deploymentId, context.tenantId, context.principalId, context.actorType, context.profileId,
    context.profileIncarnation, context.sessionId, context.sessionOwnerPrincipalId, context.conversationId,
    context.conversationLane, context.readPolicyRef, context.policyRevision, context.membershipRevision,
    context.revocationEpoch, context.ownershipGeneration, context.leaseId, context.leaseGeneration,
    context.sourceKind, context.authenticatedTransport⟩

/-- Tokens of dimensions the model does not interpret. -/
def opaqueTokens (context : AccessContextV1) : Finset String :=
  context.narrowing.filter (fun t => dimension t ∉ modelledNarrowingDimensions)

def isSubsetOf (child parent : AccessContextV1) : Bool :=
  child.contractRevision = parent.contractRevision &&
  child.bindings = parent.bindings &&
  (ungrantedOperations child = ∅ && ungrantedOperations parent = ∅) &&
  child.grants ⊆ parent.grants &&
  child.operationAllowlist ⊆ parent.operationAllowlist &&
  audienceIsNarrower child parent &&
  (child.expiresAt ≤ parent.expiresAt && parent.issuedAt ≤ child.issuedAt) &&
  parent.delegationChain = child.delegationChain.take parent.delegationChain.length &&
  (child.contextId = parent.contextId || parent.contextId ∈ child.delegationChain) &&
  (provenanceIsConsistent child && provenanceIsConsistent parent) &&
  opaqueTokens parent ⊆ child.narrowing &&
  isNarrower child.collectionAllowlist parent.collectionAllowlist &&
  (child.collectionAllowlist = ∅ || child.defaultWriteCollectionId ∈ child.collectionAllowlist) &&
  (child.defaultWriteCollectionId = parent.defaultWriteCollectionId ||
    (child.collectionAllowlist ≠ ∅ && child.defaultWriteCollectionId ∈ child.collectionAllowlist))

end AccessContext
