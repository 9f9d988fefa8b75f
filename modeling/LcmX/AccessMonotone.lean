import LcmX.AccessDelegation

/-!
# Validation is monotone along derivations

`Within` is the part of the subset test that validation reads. Every call keeps
it without a condition, and so does the subset test; what a context within
another passes, the other passes too.
-/
namespace AccessContext

open Fallible

structure Within (child parent : AccessContextV1) : Prop where
  revision : child.contractRevision = parent.contractRevision
  bindings : child.bindings = parent.bindings
  operations : child.operationAllowlist ⊆ parent.operationAllowlist
  collections : isNarrower child.collectionAllowlist parent.collectionAllowlist = true
  expires : child.expiresAt ≤ parent.expiresAt
  issued : parent.issuedAt ≤ child.issuedAt

theorem Within.refl (context : AccessContextV1) : Within context context :=
  ⟨rfl, rfl, Finset.Subset.refl _, isNarrower_refl _, le_refl _, le_refl _⟩

theorem Within.trans {a b c : AccessContextV1} (hab : Within a b) (hbc : Within b c) : Within a c :=
  ⟨hab.revision.trans hbc.revision, hab.bindings.trans hbc.bindings,
    Finset.Subset.trans hab.operations hbc.operations, isNarrower_trans hab.collections hbc.collections,
    hab.expires.trans hbc.expires, hbc.issued.trans hab.issued⟩

theorem Subset.within {child parent : AccessContextV1} (h : Subset child parent) : Within child parent :=
  ⟨h.revision, h.bindings, h.operations, h.collections, h.expires, h.issued⟩

theorem narrowed_within {self : AccessContextV1} {args : NarrowArgs} (h : Narrows self args) :
    Within (self.narrowed args) self :=
  ⟨rfl, rfl, narrowed_operations h, narrowed_collections h, h.expiry, le_refl _⟩

theorem apply_within {context child : AccessContextV1} {call : Call} (h : call.apply context = .ok child) :
    Within child context := by
  cases call with
  | narrow args =>
    obtain ⟨hspec, rfl⟩ := narrow_spec h
    exact narrowed_within hspec
  | deriveChild args nonce =>
    obtain ⟨-, hspec, contextId, requestId, rfl⟩ := deriveChild_spec h
    have hw := narrowed_within hspec
    exact ⟨hw.revision, hw.bindings, hw.operations, hw.collections, hw.expires, hw.issued⟩

theorem applyAll_within (calls : List Call) : ∀ (context result : AccessContextV1),
    applyAll context calls = .ok result → Within result context := by
  induction calls with
  | nil =>
    intro context result h
    rw [applyAll] at h
    cases h
    exact Within.refl _
  | cons call rest ih =>
    intro context result h
    rw [applyAll, bind_ok] at h
    obtain ⟨next, hnext, hrest⟩ := h
    exact (ih next result hrest).trans (apply_within hnext)

/-! ## The stages -/

theorem ite_some_allowed {cond : Prop} [Decidable cond] {reason : DenialReason}
    {detail : List (String × DetailValue)} {rest : Option Decision} {d : Decision}
    (hrest : rest = some d → d.allowed = false)
    (h : (if cond then some (.deny reason detail) else rest) = some d) : d.allowed = false := by
  by_cases hc : cond
  · rw [if_pos hc] at h
    cases h
    rfl
  · rw [if_neg hc] at h
    exact hrest h

/-- A stage never allows: it passes or denies. -/
theorem checkStage_denies {context : AccessContextV1} {args : ValidateArgs} {stage : ValidationStage} {d : Decision}
    (h : checkStage context args stage = some d) : d.allowed = false := by
  have hnone : (none : Option Decision) = some d → d.allowed = false := fun he => by cases he
  cases stage with
  | contextPresent => exact hnone h
  | contextWellFormed => exact ite_some_allowed hnone h
  | revisionSupported => exact ite_some_allowed hnone h
  | notExpired => exact ite_some_allowed hnone h
  | notRevoked => exact ite_some_allowed hnone h
  | ownershipCurrent =>
    exact ite_some_allowed (ite_some_allowed (ite_some_allowed (ite_some_allowed (ite_some_allowed hnone)))) h
  | leaseCurrent => exact ite_some_allowed hnone h
  | scopePermitted => exact ite_some_allowed (ite_some_allowed hnone) h
  | targetResolution => exact ite_some_allowed hnone h

theorem validate_allowed_iff (context : AccessContextV1) (args : ValidateArgs) :
    (validate (some context) args).allowed = true ↔
      ∀ stage ∈ validationOrder, checkStage context args stage = none := by
  rw [← List.findSome?_eq_none_iff]
  cases h : validationOrder.findSome? (checkStage context args) with
  | none => simp [validate, h, Decision.allowed]
  | some d =>
    obtain ⟨stage, -, hs⟩ := List.exists_of_findSome?_eq_some h
    simp [validate, h, checkStage_denies hs]

/-- The arguments that name one request or one context. -/
structure ValidateArgs.IdFree (args : ValidateArgs) : Prop where
  revoked_ids : args.revokedContextIds = none
  request : args.expectedRequestId = none
  context : args.expectedContextId = none

/-- Where every stage passes on the child, each passes on the parent. -/
theorem checkStage_mono {child parent : AccessContextV1} {args : ValidateArgs} (hw : Within child parent)
    (hid : args.IdFree) (hfields : invalidFields parent = []) (hgranted : ungrantedOperations parent = ∅)
    (hstages : ∀ stage ∈ validationOrder, checkStage child args stage = none) (stage : ValidationStage) :
    checkStage parent args stage = none := by
  have hall : ∀ stage, checkStage child args stage = none := by
    intro stage
    apply hstages
    cases stage <;> decide
  have hstage := hall stage
  have hpolicy := congrArg Bindings.policyRevision hw.bindings
  have hmember := congrArg Bindings.membershipRevision hw.bindings
  have hepoch := congrArg Bindings.revocationEpoch hw.bindings
  have hprincipal := congrArg Bindings.principalId hw.bindings
  have howner := congrArg Bindings.sessionOwnerPrincipalId hw.bindings
  have hgen := congrArg Bindings.ownershipGeneration hw.bindings
  have hlease := congrArg Bindings.leaseId hw.bindings
  have hleasegen := congrArg Bindings.leaseGeneration hw.bindings
  simp only [AccessContextV1.bindings] at hpolicy hmember hepoch hprincipal howner hgen hlease hleasegen
  cases stage with
  | contextPresent => rfl
  | contextWellFormed =>
    simp only [checkStage, ite_eq_right_iff, reduceCtorEq, imp_false, not_or, not_not, ge_iff_le, not_le] at hstage ⊢
    have h1 := hw.expires
    have h2 := hw.issued
    exact ⟨hfields, by omega, hgranted⟩
  | revisionSupported =>
    simp only [checkStage, ite_eq_right_iff, reduceCtorEq, imp_false, not_not] at hstage ⊢
    rw [← hw.revision]
    exact hstage
  | notExpired =>
    simp only [checkStage, ite_eq_right_iff, reduceCtorEq, imp_false, not_or, ge_iff_le, not_le, not_lt] at hstage ⊢
    have h1 := hw.expires
    have h2 := hw.issued
    omega
  | notRevoked =>
    simp only [checkStage, hid.revoked_ids, scopeValues, Finset.notMem_empty, decide_false, hpolicy, hmember,
      hepoch] at hstage ⊢
    split_ifs at hstage ⊢
    rfl
  | ownershipCurrent =>
    simp only [checkStage, hid.request, hid.context, differs, Option.isSome_none, Bool.false_and,
      Bool.false_eq_true, if_false, hgen, hprincipal, howner] at hstage ⊢
    split_ifs at hstage ⊢
    rfl
  | leaseCurrent =>
    simp only [checkStage, hlease, hleasegen] at hstage ⊢
    split_ifs at hstage ⊢
    rfl
  | scopePermitted =>
    simp only [checkStage] at hstage ⊢
    split_ifs at hstage with hcoll hscope
    have hscope' : scopeValues args.requiredScope ⊆ parent.operationAllowlist :=
      Finset.Subset.trans hscope hw.operations
    have hcoll' : ¬ (args.requestedCollections.isSome ∧ parent.collectionAllowlist ≠ ∅ ∧
        ¬ scopeValues args.requestedCollections ⊆ parent.collectionAllowlist) := by
      rintro ⟨hsome, hne, hout⟩
      have hnar := (isNarrower_iff _ _).mp hw.collections
      obtain ⟨hcne, hcsub⟩ := hnar.resolve_left hne
      refine hcoll ⟨hsome, hcne, fun hin => hout (Finset.Subset.trans hin hcsub)⟩
    rw [if_neg hcoll', if_neg (not_not.mpr hscope')]
  | targetResolution => exact hstage

theorem validate_mono {child parent : AccessContextV1} {args : ValidateArgs} (hw : Within child parent)
    (hid : args.IdFree) (hfields : invalidFields parent = []) (hgranted : ungrantedOperations parent = ∅)
    (h : (validate (some child) args).allowed = true) : (validate (some parent) args).allowed = true := by
  rw [validate_allowed_iff] at h ⊢
  exact fun stage _ => checkStage_mono hw hid hfields hgranted h stage

/-- What a derived context passes, a well-formed origin passes; the subset test
is transitive; and what a subset passes, its superset passes. -/
theorem validate_monotone :
    (∀ (parent child : AccessContextV1) (calls : List Call) (args : ValidateArgs), invalidFields parent = [] →
      ungrantedOperations parent = ∅ → args.IdFree → applyAll parent calls = .ok child →
      (validate (some child) args).allowed = true → (validate (some parent) args).allowed = true) ∧
    (∀ a b c : AccessContextV1, isSubsetOf a b = true → isSubsetOf b c = true → isSubsetOf a c = true) ∧
    ∀ (child parent : AccessContextV1) (args : ValidateArgs), isSubsetOf child parent = true →
      invalidFields parent = [] → args.IdFree →
      (validate (some child) args).allowed = true → (validate (some parent) args).allowed = true := by
  refine ⟨?_, fun a b c hab hbc => isSubsetOf_trans hab hbc, ?_⟩
  · intro parent child calls args hfields hgranted hid hrun
    exact validate_mono (applyAll_within calls parent child hrun) hid hfields hgranted
  · intro child parent args hsub hfields hid
    have h := (isSubsetOf_iff child parent).mp hsub
    exact validate_mono h.within hid hfields h.ungranted_parent

/-- A complete host context whose operations are given by grants and tokens. -/
def hostContext (grants narrowing : Finset String) : AccessContextV1 where
  contextId := "ctx"
  requestId := "req"
  sourceKind := "host"
  authenticatedTransport := "mtls"
  deploymentId := "d"
  tenantId := "t"
  principalId := "alice"
  profileId := "p"
  profileIncarnation := "1"
  sessionId := "s"
  sessionOwnerPrincipalId := "alice"
  conversationId := "c"
  conversationLane := "main"
  readPolicyRef := "r"
  leaseId := "l"
  grants := grants
  issuedAt := 0
  expiresAt := 100
  narrowing := narrowing

theorem validate_monotone_read_only :
    (validate (some (hostContext {"read", "write"} ∅)) { requiredScope := some (.one "read"), now := 10 }).allowed =
      true :=
  validate_monotone.1 (hostContext {"read", "write"} ∅) _
    [.narrow { operations := some (.one "read") }] { requiredScope := some (.one "read"), now := 10 }
    (by decide) (by decide) ⟨rfl, rfl, rfl⟩ rfl (by decide)

/-- Tokens that claim an operation the host did not grant make a context fail,
and its read-only narrowing passes. -/
theorem ungranted_parent_denied :
    ∃ child, invalidFields (hostContext {"read"} {"operation:read", "operation:write"}) = [] ∧
      applyAll (hostContext {"read"} {"operation:read", "operation:write"})
        [.narrow { operations := some (.one "read") }] = .ok child ∧
      (validate (some child) { now := 10 }).allowed = true ∧
      (validate (some (hostContext {"read"} {"operation:read", "operation:write"})) { now := 10 }).allowed = false :=
  ⟨_, by decide, rfl, by decide, by decide⟩

end AccessContext
