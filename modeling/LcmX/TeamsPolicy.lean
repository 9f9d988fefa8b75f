import LcmX.AccessMonotone

/-!
# The enforcing policy

Every operation is scoped to the acting principal. The allowlist of operations
is read as "no restriction" when it is empty, the list of collections too.

Of a value in a scope mapping the policy reads its text and whether it is true.
-/
namespace TeamsPolicy

open AccessContext

structure ScopeValue where
  text : String
  truthy : Bool
  deriving DecidableEq, Repr

/-- The keys of an expected scope that the policy reads. -/
structure TargetScope where
  requiredScope : Option ScopeValue := none
  kind : Option ScopeValue := none
  sessionId : Option ScopeValue := none
  sourceSessionId : Option ScopeValue := none
  partitionKey : Option ScopeValue := none
  targetAccessScopes : List String := []
  collectionId : Option ScopeValue := none
  deriving DecidableEq, Repr

/-- `str(scope.get(key) or "")` -/
def textOf : Option ScopeValue → String
  | none => ""
  | some v => if v.truthy then v.text else ""

def storeWideKinds : Finset String :=
  {"backup", "assertions_rebuild", "embedding_backfill", "chunk_backfill"}

def adminRequiredScopes : Finset String := {"admin"}

def allowlistedOperations : Finset String := {"read", "write"}

/-- The owner scope a row would be stamped with for this context. -/
def principalOf : Option AccessContextV1 → String
  | none => ""
  | some context =>
    if context.sessionOwnerPrincipalId ≠ "" then context.sessionOwnerPrincipalId else context.principalId

/-- What a lookup of a session's owner says: it raised, nothing claims the
session, or somebody owns it. -/
inductive Owner where
  | lookupFailed
  | unclaimed
  | owned (name : String)
  deriving DecidableEq, Repr

/-- The callable that resolves the owner of a session; it may raise. -/
abbrev SessionOwner := String → Except Unit (Option String)

abbrev OwnerCache := List (String × Owner)

structure Policy where
  context : Option AccessContextV1
  sessionOwner : Option SessionOwner := none
  ownerCache : OwnerCache := []

def resolve (sessionOwner : SessionOwner) (sessionId : String) : Owner :=
  match sessionOwner sessionId with
  | .error _ => .lookupFailed
  | .ok none => .unclaimed
  | .ok (some name) => if name = "" then .unclaimed else .owned name

/-- `_target_owner`, with the answers of this policy cached. -/
def targetOwner (sessionOwner : Option SessionOwner) (cache : OwnerCache) (sessionId : String) :
    Owner × OwnerCache :=
  match sessionOwner with
  | none => (.unclaimed, cache)
  | some sessionOwner =>
    match cache.lookup sessionId with
    | some owner => (owner, cache)
    | none =>
      let owner := resolve sessionOwner sessionId
      (owner, (sessionId, owner) :: cache)

/-- The bound context for `none`, a supplied context only where it is the bound
one; the outer `none` is a context the policy was not built for. -/
def Policy.effectiveContext (policy : Policy) (context : Option AccessContextV1) :
    Option (Option AccessContextV1) :=
  match context with
  | none => some policy.context
  | some context => if policy.context = some context then some (some context) else none

def operationAllowlistOf : Option AccessContextV1 → Finset String
  | none => ∅
  | some context => context.operationAllowlist

def collectionAllowlistOf : Option AccessContextV1 → Finset String
  | none => ∅
  | some context => context.collectionAllowlist

/-- The operation words of a request that an allowlist is about. -/
def requestedWords (operation : String) (scope : TargetScope) : Finset String :=
  {operation, textOf scope.requiredScope} ∩ allowlistedOperations

/-- The loop over the session keys of the scope. -/
def checkTargets (sessionOwner : Option SessionOwner) (principal : String) :
    List (Option ScopeValue) → OwnerCache → Option Decision × OwnerCache
  | [], cache => (none, cache)
  | none :: rest, cache => checkTargets sessionOwner principal rest cache
  | some target :: rest, cache =>
    if target.truthy then
      let answer := targetOwner sessionOwner cache target.text
      match answer.1 with
      | .lookupFailed => (some (.deny .contextInvalid []), answer.2)
      | .unclaimed => checkTargets sessionOwner principal rest answer.2
      | .owned name =>
        if name ≠ principal then (some (.deny .scopeForbidden []), answer.2)
        else checkTargets sessionOwner principal rest answer.2
    else checkTargets sessionOwner principal rest cache

/-- The checks after the session keys: the owners of raw targets and the named
collection. -/
def checkNamed (effective : Option AccessContextV1) (principal : String) (scope : TargetScope) : Decision :=
  if ∃ owner ∈ scope.targetAccessScopes, owner ≠ principal then .deny .scopeForbidden []
  else if collectionAllowlistOf effective ≠ ∅ ∧
      ∃ named ∈ scope.collectionId, named.text ∉ collectionAllowlistOf effective then .deny .scopeForbidden []
  else .allow []

def Policy.authorizeOperation (policy : Policy) (context : Option AccessContextV1) (operation : String)
    (expectedScope : TargetScope) : Decision × Policy :=
  match policy.effectiveContext context with
  | none => (.deny .contextInvalid [], policy)
  | some effective =>
    let principal := principalOf effective
    let allowlist := operationAllowlistOf effective
    if principal = "" then (.deny .contextInvalid [], policy)
    else if allowlist ≠ ∅ ∧ requestedWords operation expectedScope \ allowlist ≠ ∅ then
      (.deny .scopeForbidden [], policy)
    else if textOf expectedScope.kind ∈ storeWideKinds then (.deny .scopeForbidden [], policy)
    else if textOf expectedScope.requiredScope ∈ adminRequiredScopes then (.deny .scopeForbidden [], policy)
    else
      let targets := checkTargets policy.sessionOwner principal
        [expectedScope.sessionId, expectedScope.sourceSessionId, expectedScope.partitionKey] policy.ownerCache
      match targets.1 with
      | some denial => (denial, { policy with ownerCache := targets.2 })
      | none => (checkNamed effective principal expectedScope, { policy with ownerCache := targets.2 })

/-! ## What an allowed operation has passed -/

/-- The decision of a fresh policy about the context it is bound to. -/
def allows (context : AccessContextV1) (sessionOwner : Option SessionOwner) (operation : String)
    (scope : TargetScope) : Bool :=
  (Policy.authorizeOperation { context := some context, sessionOwner := sessionOwner } none operation scope).1.allowed

theorem checkTargets_denies (sessionOwner : Option SessionOwner) (principal : String)
    (targets : List (Option ScopeValue)) : ∀ (cache : OwnerCache) (d : Decision),
      (checkTargets sessionOwner principal targets cache).1 = some d → d.allowed = false := by
  induction targets with
  | nil =>
    intro cache d h
    cases h
  | cons target rest ih =>
    intro cache d h
    cases target with
    | none => exact ih cache d h
    | some target =>
      rw [checkTargets] at h
      split at h
      · generalize targetOwner sessionOwner cache target.text = answer at h
        obtain ⟨owner, cache'⟩ := answer
        cases owner with
        | lookupFailed => cases h; rfl
        | unclaimed => exact ih _ d h
        | owned name =>
          simp only at h
          split at h
          · cases h; rfl
          · exact ih _ d h
      · exact ih cache d h

structure Passes (context : AccessContextV1) (sessionOwner : Option SessionOwner) (operation : String)
    (scope : TargetScope) : Prop where
  principal : principalOf (some context) ≠ ""
  words : context.operationAllowlist ≠ ∅ → requestedWords operation scope ⊆ context.operationAllowlist
  kind : textOf scope.kind ∉ storeWideKinds
  required : textOf scope.requiredScope ∉ adminRequiredScopes
  targets : (checkTargets sessionOwner (principalOf (some context))
    [scope.sessionId, scope.sourceSessionId, scope.partitionKey] []).1 = none
  owners : ∀ owner ∈ scope.targetAccessScopes, owner = principalOf (some context)
  collection : context.collectionAllowlist ≠ ∅ → ∀ named ∈ scope.collectionId,
    named.text ∈ context.collectionAllowlist

theorem checkNamed_allowed_iff (context : AccessContextV1) (principal : String) (scope : TargetScope) :
    (checkNamed (some context) principal scope).allowed = true ↔
      (∀ owner ∈ scope.targetAccessScopes, owner = principal) ∧
      (context.collectionAllowlist ≠ ∅ → ∀ named ∈ scope.collectionId,
        named.text ∈ context.collectionAllowlist) := by
  unfold checkNamed
  split_ifs with h1 h2
  · obtain ⟨owner, hm, hne⟩ := h1
    simp only [Decision.allowed, Bool.false_eq_true, false_iff, not_and]
    exact fun hall => absurd (hall owner hm) hne
  · obtain ⟨hne, named, hm, hout⟩ := h2
    simp only [Decision.allowed, Bool.false_eq_true, false_iff, not_and]
    exact fun _ hall => hout (hall hne named hm)
  · simp only [not_exists, not_and, not_not] at h1 h2
    simp only [Decision.allowed, true_iff]
    exact ⟨h1, h2⟩

theorem allows_iff (context : AccessContextV1) (sessionOwner : Option SessionOwner) (operation : String)
    (scope : TargetScope) :
    allows context sessionOwner operation scope = true ↔ Passes context sessionOwner operation scope := by
  simp only [allows, Policy.authorizeOperation, Policy.effectiveContext, operationAllowlistOf]
  split_ifs with h1 h2 h3 h4
  · simp only [Decision.allowed, Bool.false_eq_true, false_iff]
    exact fun h => h.principal h1
  · simp only [Decision.allowed, Bool.false_eq_true, false_iff]
    exact fun h => h2.2 (Finset.sdiff_eq_empty_iff_subset.mpr (h.words h2.1))
  · simp only [Decision.allowed, Bool.false_eq_true, false_iff]
    exact fun h => h.kind h3
  · simp only [Decision.allowed, Bool.false_eq_true, false_iff]
    exact fun h => h.required h4
  · simp only [not_and, not_not] at h2
    cases ht : (checkTargets sessionOwner (principalOf (some context))
        [scope.sessionId, scope.sourceSessionId, scope.partitionKey] []).1 with
    | some d =>
      simp only [checkTargets_denies _ _ _ _ d ht, Bool.false_eq_true, false_iff]
      intro h
      rw [h.targets] at ht
      cases ht
    | none =>
      simp only [checkNamed_allowed_iff]
      constructor
      · rintro ⟨ho, hc⟩
        exact ⟨h1, fun hne => Finset.sdiff_eq_empty_iff_subset.mp (h2 hne), h3, h4, ht, ho, hc⟩
      · exact fun h => ⟨h.owners, h.collection⟩

/-! ## Derived contexts -/

/-- The operations a call gives through a typed argument. -/
def requestedOperations : Call → Option Strings
  | .narrow args => args.requestedOperations
  | .deriveChild args _ => some args.operations

/-- A child has no operations left only where its parent has none or the call
asked for none. -/
theorem child_operations_empty {parent child : AccessContextV1} {call : Call} (h : call.apply parent = .ok child)
    (he : child.operationAllowlist = ∅) :
    parent.operationAllowlist = ∅ ∨ ∃ s, requestedOperations call = some s ∧ s.freeze = ∅ := by
  have hnarrow : ∀ args : NarrowArgs, Narrows parent args → (parent.narrowed args).operationAllowlist = ∅ →
      parent.operationAllowlist = ∅ ∨ ∃ s, args.requestedOperations = some s ∧ s.freeze = ∅ := by
    intro args hspec he
    cases hs : args.requestedOperations with
    | none =>
      rw [operationAllowlist_none hspec hs] at he
      split_ifs at he with hR
      · exact absurd he hR
      · exact Or.inl he
    | some s =>
      rw [operationAllowlist_some hspec hs] at he
      split_ifs at he with hR
      · exact absurd he hR
      · exact Or.inr ⟨s, rfl, he⟩
  cases call with
  | narrow args =>
    obtain ⟨hspec, rfl⟩ := narrow_spec h
    exact hnarrow args hspec he
  | deriveChild args nonce =>
    obtain ⟨-, hspec, contextId, requestId, rfl⟩ := deriveChild_spec h
    exact hnarrow args.toNarrow hspec he

theorem child_operations_of_empty {parent child : AccessContextV1} {call : Call} (h : call.apply parent = .ok child)
    {s : Strings} (hs : requestedOperations call = some s) (he : s.freeze = ∅) : child.operationAllowlist = ∅ := by
  have hnarrow : ∀ args : NarrowArgs, Narrows parent args → args.requestedOperations = some s →
      (parent.narrowed args).operationAllowlist = ∅ := by
    intro args hspec hs
    rw [operationAllowlist_some hspec hs, he]
    simp
  cases call with
  | narrow args =>
    obtain ⟨hspec, rfl⟩ := narrow_spec h
    exact hnarrow args hspec hs
  | deriveChild args nonce =>
    obtain ⟨-, hspec, contextId, requestId, rfl⟩ := deriveChild_spec h
    exact hnarrow args.toNarrow hspec hs

theorem principalOf_within {child parent : AccessContextV1} (hw : Within child parent) :
    principalOf (some child) = principalOf (some parent) := by
  have h1 := congrArg Bindings.principalId hw.bindings
  have h2 := congrArg Bindings.sessionOwnerPrincipalId hw.bindings
  simp only [AccessContextV1.bindings] at h1 h2
  simp only [principalOf, h1, h2]

theorem Passes.mono {child parent : AccessContextV1} {sessionOwner : Option SessionOwner} {operation : String}
    {scope : TargetScope} (hw : Within child parent) (h : Passes child sessionOwner operation scope)
    (hwords : parent.operationAllowlist ≠ ∅ → requestedWords operation scope ⊆ parent.operationAllowlist) :
    Passes parent sessionOwner operation scope := by
  have hp := principalOf_within hw
  refine ⟨hp ▸ h.principal, hwords, h.kind, h.required, hp ▸ h.targets, hp ▸ h.owners, ?_⟩
  intro hne named hm
  obtain ⟨hcne, hcsub⟩ := ((isNarrower_iff _ _).mp hw.collections).resolve_left hne
  exact hcsub (h.collection hcne named hm)

/-- A validated context has a principal. -/
theorem principal_of_validated {context : AccessContextV1} {args : ValidateArgs}
    (h : (validate (some context) args).allowed = true) : principalOf (some context) ≠ "" := by
  have hstage := (validate_allowed_iff context args).mp h .contextWellFormed (by decide)
  simp only [checkStage, ite_eq_right_iff, reduceCtorEq, imp_false, not_or, not_not] at hstage
  have hfields := hstage.1
  simp only [invalidFields, List.map_eq_nil_iff, List.filter_eq_nil_iff] at hfields
  have howner := hfields ("session_owner_principal_id", context.sessionOwnerPrincipalId) (by simp [requiredFields])
  simp only [decide_eq_true_eq] at howner
  simp only [principalOf, ne_eq, howner, not_false_eq_true, if_true]

/-- A derived context amplifies nothing, unless its operations are emptied by
the call and its parent was restricted to less than both words. -/
theorem no_amplification_iff {parent child : AccessContextV1} (call : Call) (args : ValidateArgs)
    (hvalid : (validate (some parent) args).allowed = true) (hcall : call.apply parent = .ok child) :
    (∀ sessionOwner operation scope, allows child sessionOwner operation scope = true →
      allows parent sessionOwner operation scope = true) ↔
    ((requestedOperations call).map Strings.freeze ≠ some ∅ ∨ parent.operationAllowlist = ∅ ∨
      allowlistedOperations ⊆ parent.operationAllowlist) := by
  constructor
  · intro hall
    by_contra hcond
    simp only [not_or, not_not] at hcond
    obtain ⟨hempty, hne, hout⟩ := hcond
    obtain ⟨s, hs, hfreeze⟩ := Option.map_eq_some_iff.mp hempty
    obtain ⟨word, hword, hnot⟩ := Finset.not_subset.mp hout
    have hchild := child_operations_of_empty hcall hs hfreeze
    have hw := apply_within hcall
    have hpass : Passes child none word {} := by
      have hp := principalOf_within hw
      exact ⟨hp ▸ principal_of_validated hvalid, fun h => absurd hchild h, by decide, by decide, rfl,
        by simp, by simp⟩
    have hparent := (allows_iff _ _ _ _).mp (hall none word {} ((allows_iff _ _ _ _).mpr hpass))
    exact hnot (hparent.words hne (by simp [requestedWords, hword]))
  · intro hcond sessionOwner operation scope hchild
    have hpass := (allows_iff _ _ _ _).mp hchild
    refine (allows_iff _ _ _ _).mpr (hpass.mono (apply_within hcall) ?_)
    intro hne
    by_cases he : child.operationAllowlist = ∅
    · rcases child_operations_empty hcall he with hp | ⟨s, hs, hfreeze⟩
      · exact absurd hp hne
      · have hsub := (hcond.resolve_left (by simp [hs, hfreeze])).resolve_left hne
        exact Finset.Subset.trans Finset.inter_subset_right hsub
    · exact Finset.Subset.trans (hpass.words he) (apply_within hcall).operations

/-- The read-only narrowing of a context that may read and write. -/
theorem no_amplification_read_only :
    ∃ child, (Call.narrow { operations := some (.one "read") }).apply (hostContext {"read", "write"} ∅) = .ok child ∧
      ∀ sessionOwner operation scope, allows child sessionOwner operation scope = true →
        allows (hostContext {"read", "write"} ∅) sessionOwner operation scope = true :=
  ⟨_, rfl, (no_amplification_iff (.narrow { operations := some (.one "read") }) { now := 10 }
    (by decide) rfl).mpr (Or.inl (by decide))⟩

/-- A context that may only read, narrowed to no operation, may write. -/
theorem emptied_operations_allow_write :
    ∃ child, (validate (some (hostContext {"read"} ∅)) { now := 10 }).allowed = true ∧
      (Call.narrow { operations := some (.many []) }).apply (hostContext {"read"} ∅) = .ok child ∧
      allows child none "write" {} = true ∧ allows (hostContext {"read"} ∅) none "write" {} = false :=
  ⟨_, by decide, rfl, by decide, by decide⟩

end TeamsPolicy
