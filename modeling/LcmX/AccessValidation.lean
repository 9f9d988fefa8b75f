import LcmX.AccessContext

/-!
# Validation and delegation

The staged validation of an access context and the derivation of a delegated
child. All state and time are arguments; the nonce of a derivation is an
argument too.
-/
namespace AccessContext

inductive DenialReason where
  | contextMissing
  | contextInvalid
  | contextUnsupportedVersion
  | contextExpired
  | contextRevoked
  | scopeForbidden
  | scopeMismatch
  | ownershipChanged
  | leaseStale
  | targetNotFoundOrForbidden
  deriving DecidableEq, Repr

inductive DetailValue where
  | text (value : String)
  | number (value : Int)
  deriving DecidableEq, Repr

/-- An allowed decision has no denial reason and a denied one has exactly one. -/
inductive Decision where
  | allow (detail : List (String × DetailValue))
  | deny (reason : DenialReason) (detail : List (String × DetailValue))
  deriving DecidableEq, Repr

def Decision.allowed : Decision → Bool
  | .allow _ => true
  | .deny _ _ => false

inductive ValidationStage where
  | contextPresent
  | contextWellFormed
  | revisionSupported
  | notExpired
  | notRevoked
  | ownershipCurrent
  | leaseCurrent
  | scopePermitted
  | targetResolution
  deriving DecidableEq, Repr

def validationOrder : List ValidationStage :=
  [.contextPresent, .contextWellFormed, .revisionSupported, .notExpired, .notRevoked,
    .ownershipCurrent, .leaseCurrent, .scopePermitted, .targetResolution]

def scopeValues : Option Strings → Finset String
  | none => ∅
  | some value => value.freeze

/-- The required fields, by name. -/
def requiredFields (context : AccessContextV1) : List (String × String) :=
  [("context_id", context.contextId), ("request_id", context.requestId), ("source_kind", context.sourceKind),
    ("authenticated_transport", context.authenticatedTransport), ("deployment_id", context.deploymentId),
    ("tenant_id", context.tenantId), ("principal_id", context.principalId), ("profile_id", context.profileId),
    ("profile_incarnation", context.profileIncarnation), ("session_id", context.sessionId),
    ("session_owner_principal_id", context.sessionOwnerPrincipalId),
    ("conversation_id", context.conversationId), ("conversation_lane", context.conversationLane),
    ("read_policy_ref", context.readPolicyRef), ("lease_id", context.leaseId)]

def invalidFields (context : AccessContextV1) : List String :=
  ((requiredFields context).filter (fun f => f.2 = "")).map Prod.fst

/-- The keyword arguments of `validate`. -/
structure ValidateArgs where
  requiredScope : Option Strings := none
  now : Int
  revoked : Bool := false
  revokedContextIds : Option Strings := none
  currentPolicyRevision : Option Int := none
  currentMembershipRevision : Option Int := none
  currentRevocationEpoch : Option Int := none
  currentOwnershipGeneration : Option Int := none
  currentLeaseId : Option String := none
  currentLeaseGeneration : Option Int := none
  expectedPrincipalId : Option String := none
  expectedRequestId : Option String := none
  expectedContextId : Option String := none
  expectedLeaseId : Option String := none
  requestedCollections : Option Strings := none
  targetAllowed : Option Bool := none
  deriving DecidableEq, Repr

/-- `expected is not None and expected != actual` -/
def differs {α : Type} [DecidableEq α] (expected : Option α) (actual : α) : Bool :=
  expected.isSome && expected ≠ some actual

/-- The denial of one stage, `none` where the stage passes. -/
def checkStage (context : AccessContextV1) (args : ValidateArgs) : ValidationStage → Option Decision
  | .contextPresent => none
  | .contextWellFormed =>
    if invalidFields context ≠ [] ∨ context.issuedAt ≥ context.expiresAt ∨ ungrantedOperations context ≠ ∅ then
      some (.deny .contextInvalid
        [("context_id", .text context.contextId), ("request_id", .text context.requestId)])
    else none
  | .revisionSupported =>
    if context.contractRevision ≠ accessContextContractRevision then
      some (.deny .contextUnsupportedVersion [("context_id", .text context.contextId)])
    else none
  | .notExpired =>
    if args.now ≥ context.expiresAt ∨ args.now < context.issuedAt then
      some (.deny .contextExpired
        [("context_id", .text context.contextId), ("request_id", .text context.requestId)])
    else none
  | .notRevoked =>
    if args.revoked || context.contextId ∈ scopeValues args.revokedContextIds ||
        differs args.currentRevocationEpoch context.revocationEpoch ||
        differs args.currentMembershipRevision context.membershipRevision ||
        differs args.currentPolicyRevision context.policyRevision then
      some (.deny .contextRevoked
        [("context_id", .text context.contextId), ("policy_revision", .number context.policyRevision),
          ("membership_revision", .number context.membershipRevision),
          ("revocation_epoch", .number context.revocationEpoch)])
    else none
  | .ownershipCurrent =>
    if differs args.currentOwnershipGeneration context.ownershipGeneration then
      some (.deny .ownershipChanged
        [("context_id", .text context.contextId), ("ownership_generation", .number context.ownershipGeneration),
          ("expected_ownership_generation", .number (args.currentOwnershipGeneration.getD 0))])
    else if differs args.expectedPrincipalId context.principalId then
      some (.deny .ownershipChanged
        [("context_id", .text context.contextId), ("principal_id", .text context.principalId)])
    else if differs args.expectedContextId context.contextId then
      some (.deny .contextInvalid [("request_id", .text context.requestId)])
    else if differs args.expectedRequestId context.requestId then
      some (.deny .contextInvalid [("context_id", .text context.contextId)])
    else if ("owner_only" ∈ scopeValues args.requiredScope ∨ "owner" ∈ scopeValues args.requiredScope) ∧
        context.sessionOwnerPrincipalId ≠ context.principalId then
      some (.deny .ownershipChanged
        [("context_id", .text context.contextId), ("principal_id", .text context.principalId)])
    else none
  | .leaseCurrent =>
    if differs args.expectedLeaseId context.leaseId || differs args.currentLeaseId context.leaseId ||
        differs args.currentLeaseGeneration context.leaseGeneration then
      some (.deny .leaseStale
        [("context_id", .text context.contextId), ("lease_id", .text context.leaseId),
          ("lease_generation", .number context.leaseGeneration)])
    else none
  | .scopePermitted =>
    if args.requestedCollections.isSome ∧ context.collectionAllowlist ≠ ∅ ∧
        ¬ scopeValues args.requestedCollections ⊆ context.collectionAllowlist then
      some (.deny .scopeMismatch
        [("context_id", .text context.contextId), ("policy_revision", .number context.policyRevision)])
    else if ¬ scopeValues args.requiredScope ⊆ context.operationAllowlist then
      some (.deny .scopeForbidden
        [("context_id", .text context.contextId), ("policy_revision", .number context.policyRevision)])
    else none
  | .targetResolution =>
    if args.targetAllowed = some false then some (.deny .targetNotFoundOrForbidden []) else none

/-- Walk the stages in order and return the first denial. -/
def validate (context : Option AccessContextV1) (args : ValidateArgs) : Decision :=
  match context with
  | none => .deny .contextMissing []
  | some context =>
    match validationOrder.findSome? (checkStage context args) with
    | some denial => denial
    | none => .allow [("context_id", .text context.contextId), ("request_id", .text context.requestId)]

/-! ## Delegation -/

/-- The keyword arguments of `derive_child`. -/
structure DeriveArgs where
  operations : Strings
  collections : Option Strings := none
  audience : Option Strings := none
  expiresAt : Int
  profileId : Option String := none
  sessionId : Option String := none
  conversationId : Option String := none
  policyRevision : Option Int := none
  membershipRevision : Option Int := none
  revocationEpoch : Option Int := none
  currentPolicyRevision : Option Int := none
  currentMembershipRevision : Option Int := none
  currentRevocationEpoch : Option Int := none
  childContextId : Option String := none
  childRequestId : Option String := none
  deriving DecidableEq, Repr

/-- The call of `narrow` that `derive_child` makes. -/
def DeriveArgs.toNarrow (args : DeriveArgs) : NarrowArgs where
  operations := some args.operations
  collections := args.collections
  audience := args.audience
  expiresAt := some args.expiresAt
  profileId := args.profileId
  sessionId := args.sessionId
  conversationId := args.conversationId
  policyRevision := args.policyRevision.or args.currentPolicyRevision
  membershipRevision := args.membershipRevision.or args.currentMembershipRevision
  revocationEpoch := args.revocationEpoch.or args.currentRevocationEpoch

def checkAliases (name : String) (explicit current : Option Int) : Except ScopeMismatchError Unit :=
  reject (explicit.isSome ∧ current.isSome ∧ explicit ≠ current) (name ++ " aliases disagree")

/-- `given or default` on an optional string. -/
def orElseEmpty (given : Option String) (default : String) : String :=
  match given with
  | some "" => default
  | some value => value
  | none => default

/-- The chain of a child: the parent is appended unless it already ends it. -/
def childChain (parent : AccessContextV1) : List String :=
  if parent.delegationChain.getLast? = some parent.contextId then parent.delegationChain
  else parent.delegationChain ++ [parent.contextId]

def childIdOf (id : String) (number : Nat) (nonce : String) : String :=
  id ++ ":child:" ++ toString number ++ ":" ++ nonce

def deriveChild (parent : AccessContextV1) (args : DeriveArgs) (nonce : String) :
    Except ScopeMismatchError AccessContextV1 := do
  reject (parent.contextId = "") "delegation requires a host-derived parent context"
  checkAliases "policy_revision" args.policyRevision args.currentPolicyRevision
  checkAliases "membership_revision" args.membershipRevision args.currentMembershipRevision
  checkAliases "revocation_epoch" args.revocationEpoch args.currentRevocationEpoch
  let narrowed ← parent.narrow args.toNarrow
  let chain := childChain parent
  let childNumber := chain.length + 1
  return { narrowed with
    contextId := orElseEmpty args.childContextId (childIdOf parent.contextId childNumber nonce)
    requestId := orElseEmpty args.childRequestId (childIdOf parent.requestId childNumber nonce)
    delegationChain := chain
    delegatedBy := parent.contextId }

/-! ## Runs -/

/-- One call that makes a context from a context. -/
inductive Call where
  | narrow (args : NarrowArgs)
  | deriveChild (args : DeriveArgs) (nonce : String)
  deriving DecidableEq, Repr

def Call.apply (context : AccessContextV1) : Call → Except ScopeMismatchError AccessContextV1
  | .narrow args => context.narrow args
  | .deriveChild args nonce => AccessContext.deriveChild context args nonce

/-- A sequence of calls, each on the context the one before it returned. -/
def applyAll (context : AccessContextV1) : List Call → Except ScopeMismatchError AccessContextV1
  | [] => .ok context
  | call :: rest => do
    let next ← call.apply context
    applyAll next rest

end AccessContext
