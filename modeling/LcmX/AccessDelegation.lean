import LcmX.AccessNarrow
import Mathlib.Data.Finset.Basic

/-!
# Chains of narrowings and delegations

The subset test is reflexive where it holds of a context itself, and transitive.
A single call is inside its parent exactly when it keeps three things that
`narrow` does not check: the tokens of dimensions it does not interpret, the
audience tokens, and the default collection against the stored collections.
-/
namespace AccessContext

open Fallible

/-! ## The subset test as a relation -/

theorem isNarrower_refl (s : Finset String) : isNarrower s s = true := by
  rw [isNarrower_iff]
  by_cases h : s = ∅
  · exact Or.inl h
  · exact Or.inr ⟨h, Finset.Subset.refl s⟩

theorem isNarrower_trans {a b c : Finset String} (hab : isNarrower a b = true) (hbc : isNarrower b c = true) :
    isNarrower a c = true := by
  rw [isNarrower_iff] at *
  cases hbc with
  | inl hc => exact Or.inl hc
  | inr hbc =>
    cases hab with
    | inl hb => exact absurd hb hbc.1
    | inr hab => exact Or.inr ⟨hab.1, Finset.Subset.trans hab.2 hbc.2⟩

structure Subset (child parent : AccessContextV1) : Prop where
  revision : child.contractRevision = parent.contractRevision
  bindings : child.bindings = parent.bindings
  ungranted_child : ungrantedOperations child = ∅
  ungranted_parent : ungrantedOperations parent = ∅
  grants : child.grants ⊆ parent.grants
  operations : child.operationAllowlist ⊆ parent.operationAllowlist
  audience : isNarrower child.audience parent.audience = true
  audience_tokens : isNarrower (dimensionValues child.narrowing "audience")
    (dimensionValues parent.narrowing "audience") = true
  expires : child.expiresAt ≤ parent.expiresAt
  issued : parent.issuedAt ≤ child.issuedAt
  chain : parent.delegationChain <+: child.delegationChain
  context : child.contextId = parent.contextId ∨ parent.contextId ∈ child.delegationChain
  provenance_child : provenanceIsConsistent child = true
  provenance_parent : provenanceIsConsistent parent = true
  opaques : opaqueTokens parent ⊆ child.narrowing
  collections : isNarrower child.collectionAllowlist parent.collectionAllowlist = true
  default_listed : child.collectionAllowlist = ∅ ∨ child.defaultWriteCollectionId ∈ child.collectionAllowlist
  default_kept : child.defaultWriteCollectionId = parent.defaultWriteCollectionId ∨
    child.collectionAllowlist ≠ ∅

theorem isSubsetOf_iff (child parent : AccessContextV1) : isSubsetOf child parent = true ↔ Subset child parent := by
  simp only [isSubsetOf, audienceIsNarrower, Bool.and_eq_true, Bool.or_eq_true, decide_eq_true_eq,
    ← List.prefix_iff_eq_take]
  constructor
  · rintro ⟨⟨⟨⟨⟨⟨⟨⟨⟨⟨⟨⟨⟨h1, h2⟩, h3, h4⟩, h5⟩, h6⟩, h7, h8⟩, h9, h10⟩, h11⟩, h12⟩, h13, h14⟩, h15⟩, h16⟩, h17⟩, h18⟩
    exact ⟨h1, h2, h3, h4, h5, h6, h7, h8, h9, h10, h11, h12, h13, h14, h15, h16, h17, h18.imp_right And.left⟩
  · intro h
    refine ⟨⟨⟨⟨⟨⟨⟨⟨⟨⟨⟨⟨⟨h.revision, h.bindings⟩, h.ungranted_child, h.ungranted_parent⟩, h.grants⟩, h.operations⟩,
      h.audience, h.audience_tokens⟩, h.expires, h.issued⟩, h.chain⟩, h.context⟩, h.provenance_child,
      h.provenance_parent⟩, h.opaques⟩, h.collections⟩, h.default_listed⟩, ?_⟩
    exact h.default_kept.imp_right (fun hne => ⟨hne, h.default_listed.resolve_left hne⟩)

theorem Subset.trans {a b c : AccessContextV1} (hab : Subset a b) (hbc : Subset b c) : Subset a c where
  revision := hab.revision.trans hbc.revision
  bindings := hab.bindings.trans hbc.bindings
  ungranted_child := hab.ungranted_child
  ungranted_parent := hbc.ungranted_parent
  grants := Finset.Subset.trans hab.grants hbc.grants
  operations := Finset.Subset.trans hab.operations hbc.operations
  audience := isNarrower_trans hab.audience hbc.audience
  audience_tokens := isNarrower_trans hab.audience_tokens hbc.audience_tokens
  expires := hab.expires.trans hbc.expires
  issued := hbc.issued.trans hab.issued
  chain := hbc.chain.trans hab.chain
  context := by
    cases hbc.context with
    | inl hbc' => rw [← hbc']; exact hab.context
    | inr hmem => exact Or.inr (hab.chain.subset hmem)
  provenance_child := hab.provenance_child
  provenance_parent := hbc.provenance_parent
  opaques := by
    intro t ht
    have hb := hbc.opaques ht
    exact hab.opaques (Finset.mem_filter.mpr ⟨hb, (Finset.mem_filter.mp ht).2⟩)
  collections := isNarrower_trans hab.collections hbc.collections
  default_listed := hab.default_listed
  default_kept := by
    cases hab.default_kept with
    | inr hne => exact Or.inr hne
    | inl heq =>
      cases hbc.default_kept with
      | inl heq' => exact Or.inl (heq.trans heq')
      | inr hne =>
        right
        have hn := hab.collections
        rw [isNarrower_iff] at hn
        exact (hn.resolve_left hne).1

theorem isSubsetOf_trans {a b c : AccessContextV1} (hab : isSubsetOf a b = true) (hbc : isSubsetOf b c = true) :
    isSubsetOf a c = true := by
  rw [isSubsetOf_iff] at *
  exact hab.trans hbc

/-- A context inside another is inside itself. -/
theorem Subset.refl_left {child parent : AccessContextV1} (h : Subset child parent) : Subset child child where
  revision := rfl
  bindings := rfl
  ungranted_child := h.ungranted_child
  ungranted_parent := h.ungranted_child
  grants := Finset.Subset.refl _
  operations := Finset.Subset.refl _
  audience := isNarrower_refl _
  audience_tokens := isNarrower_refl _
  expires := le_refl _
  issued := le_refl _
  chain := List.prefix_refl _
  context := Or.inl rfl
  provenance_child := h.provenance_child
  provenance_parent := h.provenance_child
  opaques := Finset.filter_subset _ _
  collections := isNarrower_refl _
  default_listed := h.default_listed
  default_kept := Or.inl rfl

/-! ## One call -/

/-- Tokens of a dimension the model does not interpret are named again where the
call replaces that dimension. -/
def KeepsOpaques (context : AccessContextV1) (args : NarrowArgs) : Prop :=
  ∀ t ∈ opaqueTokens context, dimension t ∈ args.narrowedDimensions → t ∈ args.requestedNarrowing

/-- Audience values the call writes are among the audience tokens already there. -/
def KeepsAudience (context : AccessContextV1) (args : NarrowArgs) : Prop :=
  "audience" ∈ args.narrowedDimensions →
    isNarrower (args.newValues "audience") (dimensionValues context.narrowing "audience") = true

/-- Collection tokens name the default where the context lists collections, and
the empty string is no default beside a listed collection. -/
def KeepsDefault (context : AccessContextV1) (args : NarrowArgs) : Prop :=
  match args.requestedCollections with
  | none => args.requestedCollectionTokens ≠ ∅ → context.collectionAllowlist ≠ ∅ →
      context.childDefault args ∈ args.requestedCollectionTokens
  | some s => context.childDefault args = "" → s.freeze = {""} ∧ context.defaultWriteCollectionId = ""

structure Keeps (context : AccessContextV1) (args : NarrowArgs) : Prop where
  opaques : KeepsOpaques context args
  audience : KeepsAudience context args
  default : KeepsDefault context args

instance (context : AccessContextV1) (args : NarrowArgs) : Decidable (KeepsOpaques context args) :=
  inferInstanceAs (Decidable (∀ t ∈ opaqueTokens context,
    dimension t ∈ args.narrowedDimensions → t ∈ args.requestedNarrowing))

instance (context : AccessContextV1) (args : NarrowArgs) : Decidable (KeepsAudience context args) :=
  inferInstanceAs (Decidable (_ → _ = true))

instance (context : AccessContextV1) (args : NarrowArgs) : Decidable (KeepsDefault context args) :=
  match h : args.requestedCollections with
  | none => decidable_of_iff (args.requestedCollectionTokens ≠ ∅ → context.collectionAllowlist ≠ ∅ →
      context.childDefault args ∈ args.requestedCollectionTokens) (by rw [KeepsDefault, h])
  | some s => decidable_of_iff (context.childDefault args = "" →
      s.freeze = {""} ∧ context.defaultWriteCollectionId = "") (by rw [KeepsDefault, h])

instance (context : AccessContextV1) (args : NarrowArgs) : Decidable (Keeps context args) :=
  decidable_of_iff (KeepsOpaques context args ∧ KeepsAudience context args ∧ KeepsDefault context args)
    ⟨fun h => ⟨h.1, h.2.1, h.2.2⟩, fun h => ⟨h.opaques, h.audience, h.default⟩⟩

section Step

variable {self : AccessContextV1} {args : NarrowArgs}

/-- Every token has its dimension, with a value or without one. -/
theorem mem_childNarrowing_of_kept {t : String} (ht : t ∈ self.narrowing)
    (h : dimension t ∉ args.narrowedDimensions) : t ∈ self.childNarrowing args := by
  simp only [AccessContextV1.childNarrowing, Finset.mem_union]
  exact Or.inl (Or.inl (Or.inl (Or.inl (Finset.mem_filter.mpr ⟨ht, h⟩))))

/-- In a replaced uninterpreted dimension only the requested tokens are left. -/
theorem mem_childNarrowing_of_replaced {t : String} (hm : dimension t ∉ modelledNarrowingDimensions)
    (h : dimension t ∈ args.narrowedDimensions) (ht : t ∈ self.childNarrowing args) : t ∈ args.requestedNarrowing := by
  have htyped : ∀ (o : Option Strings) (s : Finset String) (e : String), ':' ∉ e.toList →
      e ∈ modelledNarrowingDimensions → t ∉ (if o.isSome then s.image (fun x => e ++ ":" ++ x) else ∅) := by
    intro o s e he hmod hin
    cases o with
    | none => simp at hin
    | some x =>
      simp only [Option.isSome_some, if_true, Finset.mem_image] at hin
      obtain ⟨y, -, rfl⟩ := hin
      rw [dimension_token e y he] at hm
      exact hm hmod
  have ho : ∀ x, "operation:" ++ x = "operation" ++ ":" ++ x := fun x => rfl
  have hc : ∀ x, "collection:" ++ x = "collection" ++ ":" ++ x := fun x => rfl
  have ha : ∀ x, "audience:" ++ x = "audience" ++ ":" ++ x := fun x => rfl
  simp only [AccessContextV1.childNarrowing, Finset.mem_union, Finset.mem_filter, ho, hc, ha,
    htyped _ _ "operation" colon_operation (by decide), htyped _ _ "collection" colon_collection (by decide),
    htyped _ _ "audience" colon_audience (by decide), h, not_true, and_false, false_or] at ht
  exact ht

theorem narrowed_opaques_iff : opaqueTokens self ⊆ (self.narrowed args).narrowing ↔ KeepsOpaques self args := by
  constructor
  · intro h t ht hdim
    exact mem_childNarrowing_of_replaced (Finset.mem_filter.mp ht).2 hdim (h ht)
  · intro h t ht
    change t ∈ self.childNarrowing args
    by_cases hdim : dimension t ∈ args.narrowedDimensions
    · simp only [AccessContextV1.childNarrowing, Finset.mem_union]
      exact Or.inr (h t ht hdim)
    · exact mem_childNarrowing_of_kept (Finset.mem_filter.mp ht).1 hdim

theorem narrowed_audience_iff : isNarrower (dimensionValues (self.narrowed args).narrowing "audience")
    (dimensionValues self.narrowing "audience") = true ↔ KeepsAudience self args := by
  have h1 := dimensionValues_childNarrowing self args "audience" colon_audience
  have hnar : (self.narrowed args).narrowing = self.childNarrowing args := rfl
  rw [hnar, h1, KeepsAudience]
  by_cases h : "audience" ∈ args.narrowedDimensions
  · simp [h]
  · simp [h, isNarrower_refl]

theorem narrowed_audience_field (h : Narrows self args) :
    isNarrower (self.narrowed args).audience self.audience = true := by
  change isNarrower (self.childAudience args) self.audience = true
  cases ha : args.audience with
  | none =>
    rw [AccessContextV1.childAudience, ha]
    exact isNarrower_refl _
  | some s =>
    have hs : args.audience.isSome := by simp [ha]
    rw [isNarrower_iff]
    by_cases he : self.audience = ∅
    · exact Or.inl he
    · exact Or.inr ⟨h.audience_nonempty hs, h.audience hs he⟩

/-- The default of the child, where the typed collections are given. -/
theorem narrowed_default_some (h : Narrows self args) {s : Strings} (hs : args.requestedCollections = some s) :
    (((self.narrowed args).collectionAllowlist = ∅ ∨
        self.childDefault args ∈ (self.narrowed args).collectionAllowlist) ∧
      (self.childDefault args = self.defaultWriteCollectionId ∨ (self.narrowed args).collectionAllowlist ≠ ∅)) ↔
    (self.childDefault args = "" → s.freeze = {""} ∧ self.defaultWriteCollectionId = "") := by
  have hne := h.collections_nonempty (by simp [hs])
  have hcs := childCollections_some self args hs
  have hin : self.childDefault args ∈ s.freeze := by
    have heff : self.effectiveCollections args = s.freeze := by
      rw [AccessContextV1.effectiveCollections, if_pos hne, hcs]
    have := h.default_effective (by rw [heff, ← hcs]; exact hne)
    rwa [heff] at this
  rw [collectionAllowlist_some h hs]
  constructor
  · rintro ⟨hlist, hkept⟩ he
    rw [he] at hlist hkept hin
    have hempty : s.freeze.erase "" = ∅ := hlist.resolve_right (Finset.notMem_erase _ _)
    have hone := ((Finset.erase_eq_empty_iff _ _).mp hempty).resolve_left (Finset.ne_empty_of_mem hin)
    exact ⟨hone, (hkept.resolve_right (fun hn => hn hempty)).symm⟩
  · intro hcond
    by_cases he : self.childDefault args = ""
    · obtain ⟨h1, h2⟩ := hcond he
      rw [h1, he, h2, Finset.erase_singleton]
      exact ⟨Or.inl rfl, Or.inl rfl⟩
    · have hmem : self.childDefault args ∈ s.freeze.erase "" := Finset.mem_erase.mpr ⟨he, hin⟩
      exact ⟨Or.inr hmem, Or.inr (Finset.ne_empty_of_mem hmem)⟩

/-- The default of the child, where only tokens are given. -/
theorem narrowed_default_none (h : Narrows self args) (hs : args.requestedCollections = none) :
    (((self.narrowed args).collectionAllowlist = ∅ ∨
        self.childDefault args ∈ (self.narrowed args).collectionAllowlist) ∧
      (self.childDefault args = self.defaultWriteCollectionId ∨ (self.narrowed args).collectionAllowlist ≠ ∅)) ↔
    (args.requestedCollectionTokens ≠ ∅ → self.collectionAllowlist ≠ ∅ →
      self.childDefault args ∈ args.requestedCollectionTokens) := by
  have hcs : self.childCollections args = self.collectionAllowlist := by
    rw [AccessContextV1.childCollections, hs]
  have heff := h.default_effective
  rw [AccessContextV1.effectiveCollections, hcs] at heff
  rw [collectionAllowlist_none hs]
  by_cases hR : args.requestedCollectionTokens = ∅
  · simp only [hR, ne_eq, not_true, if_false, false_implies, iff_true]
    by_cases hC : self.collectionAllowlist = ∅
    · exact ⟨Or.inl hC, Or.inl (h.default_bound hC hs)⟩
    · rw [if_pos hC] at heff
      exact ⟨Or.inr (heff hC), Or.inr hC⟩
  · simp only [hR, ne_eq, not_false_eq_true, if_true, false_or, or_true, and_true, true_implies]
    constructor
    · exact fun hd _ => hd
    · intro hd
      by_cases hC : self.collectionAllowlist = ∅
      · rw [if_neg (fun hn => hn hC)] at heff
        exact heff hR
      · exact hd hC

/-- A narrowing is inside its parent exactly when it keeps the three things. -/
theorem narrowed_subset_iff (h : Narrows self args) (hself : Subset self self) :
    Subset (self.narrowed args) self ↔ Keeps self args := by
  have hdefault : (((self.narrowed args).collectionAllowlist = ∅ ∨
        self.childDefault args ∈ (self.narrowed args).collectionAllowlist) ∧
      (self.childDefault args = self.defaultWriteCollectionId ∨ (self.narrowed args).collectionAllowlist ≠ ∅)) ↔
      KeepsDefault self args := by
    unfold KeepsDefault
    cases hs : args.requestedCollections with
    | none => exact narrowed_default_none h hs
    | some s => exact narrowed_default_some h hs
  constructor
  · intro hsub
    exact ⟨narrowed_opaques_iff.mp hsub.opaques, narrowed_audience_iff.mp hsub.audience_tokens,
      hdefault.mp ⟨hsub.default_listed, hsub.default_kept⟩⟩
  · intro hk
    exact
      { revision := rfl
        bindings := rfl
        ungranted_child := narrowed_ungranted h hself.ungranted_child
        ungranted_parent := hself.ungranted_child
        grants := narrowed_grants h
        operations := narrowed_operations h
        audience := narrowed_audience_field h
        audience_tokens := narrowed_audience_iff.mpr hk.audience
        expires := h.expiry
        issued := le_refl _
        chain := List.prefix_refl _
        context := Or.inl rfl
        provenance_child := hself.provenance_child
        provenance_parent := hself.provenance_child
        opaques := narrowed_opaques_iff.mpr hk.opaques
        collections := narrowed_collections h
        default_listed := (hdefault.mpr hk.default).1
        default_kept := (hdefault.mpr hk.default).2 }

end Step

/-! ## A delegation -/

theorem childChain_spec (parent : AccessContextV1) :
    parent.delegationChain <+: childChain parent ∧ (childChain parent).getLast? = some parent.contextId := by
  unfold childChain
  split
  · rename_i h
    exact ⟨List.prefix_refl _, h⟩
  · exact ⟨List.prefix_append _ _, by simp⟩

/-- The context `deriveChild` returns, from the narrowed one. -/
def relabelled (parent narrowed : AccessContextV1) (contextId requestId : String) : AccessContextV1 :=
  { narrowed with
    contextId := contextId
    requestId := requestId
    delegationChain := childChain parent
    delegatedBy := parent.contextId }

/-- Inversion of `deriveChild`. -/
theorem deriveChild_spec {parent child : AccessContextV1} {args : DeriveArgs} {nonce : String}
    (h : deriveChild parent args nonce = .ok child) :
    parent.contextId ≠ "" ∧ Narrows parent args.toNarrow ∧
      ∃ contextId requestId, child = relabelled parent (parent.narrowed args.toNarrow) contextId requestId := by
  simp only [deriveChild, bind_ok] at h
  obtain ⟨_, hid, _, -, _, -, _, -, narrowed, hn, hret⟩ := h
  obtain ⟨hspec, rfl⟩ := narrow_spec hn
  exact ⟨reject_ok.mp hid, hspec, _, _, (Except.ok.inj hret).symm⟩

/-- A subset of the parent stays one under other names that name the parent. -/
theorem Subset.relabel {narrowed parent : AccessContextV1} (h : Subset narrowed parent) (contextId requestId : String)
    (chain : List String) (delegatedBy : String) (hchain : parent.delegationChain <+: chain)
    (hcontext : contextId = parent.contextId ∨ parent.contextId ∈ chain)
    (hprov : provenanceIsConsistent
      { narrowed with
        contextId := contextId, requestId := requestId, delegationChain := chain, delegatedBy := delegatedBy } = true) :
    Subset
      { narrowed with
        contextId := contextId, requestId := requestId, delegationChain := chain, delegatedBy := delegatedBy } parent :=
  { h with chain := hchain, context := hcontext, provenance_child := hprov }

/-- Naming the parent in the chain leaves a subset of the parent, and only that. -/
theorem relabelled_subset_iff {parent narrowed : AccessContextV1} {contextId requestId : String}
    (hid : parent.contextId ≠ "") (hself : Subset parent parent) (hctx : narrowed.contextId = parent.contextId)
    (hchain : narrowed.delegationChain = parent.delegationChain) (hby : narrowed.delegatedBy = parent.delegatedBy) :
    Subset (relabelled parent narrowed contextId requestId) parent ↔ Subset narrowed parent := by
  obtain ⟨hpre, hlast⟩ := childChain_spec parent
  have hprov : provenanceIsConsistent (relabelled parent narrowed contextId requestId) = true := by
    simp [provenanceIsConsistent, relabelled, hid, hlast]
  have hprov' : provenanceIsConsistent narrowed = true := by
    have := hself.provenance_child
    simpa only [provenanceIsConsistent, hchain, hby] using this
  constructor
  · intro h
    exact h.relabel narrowed.contextId narrowed.requestId narrowed.delegationChain narrowed.delegatedBy
      (hchain ▸ List.prefix_refl _) (Or.inl hctx) hprov'
  · intro h
    exact h.relabel contextId requestId (childChain parent) parent.contextId hpre
      (Or.inr (List.mem_of_getLast? hlast)) hprov

/-! ## Runs -/

def Call.Keeps (context : AccessContextV1) : Call → Prop
  | .narrow args => AccessContext.Keeps context args
  | .deriveChild args _ => AccessContext.Keeps context args.toNarrow

/-- Every call of the run keeps what it must, on the context it is made on. -/
def KeepsAll (context : AccessContextV1) : List Call → Prop
  | [] => True
  | call :: rest => call.Keeps context ∧
    match call.apply context with
    | .ok next => KeepsAll next rest
    | .error _ => True

/-- One call from a context inside itself. -/
theorem apply_subset_iff {context child : AccessContextV1} {call : Call} (hself : Subset context context)
    (h : call.apply context = .ok child) : Subset child context ↔ call.Keeps context := by
  cases call with
  | narrow args =>
    obtain ⟨hspec, rfl⟩ := narrow_spec h
    exact narrowed_subset_iff hspec hself
  | deriveChild args nonce =>
    obtain ⟨hid, hspec, contextId, requestId, rfl⟩ := deriveChild_spec h
    have hctx : (context.narrowed args.toNarrow).contextId = context.contextId := rfl
    rw [relabelled_subset_iff hid hself hctx rfl rfl]
    exact narrowed_subset_iff hspec hself

theorem applyAll_subset (calls : List Call) : ∀ (context result : AccessContextV1), Subset context context →
    applyAll context calls = .ok result → KeepsAll context calls → Subset result context := by
  induction calls with
  | nil =>
    intro context result hself hrun _
    rw [applyAll] at hrun
    cases hrun
    exact hself
  | cons call rest ih =>
    intro context result hself hrun hk
    rw [applyAll, bind_ok] at hrun
    obtain ⟨next, hnext, hrest⟩ := hrun
    rw [KeepsAll, hnext] at hk
    have hstep := (apply_subset_iff hself hnext).mpr hk.1
    exact (ih next result hstep.refl_left hrest hk.2).trans hstep

/-- A run whose calls keep what they must ends inside its first context, and a
single call does so exactly when it keeps it. -/
theorem derived_within_parent (parent : AccessContextV1) (hself : isSubsetOf parent parent = true) :
    (∀ calls result, applyAll parent calls = .ok result → KeepsAll parent calls →
      isSubsetOf result parent = true) ∧
    ∀ (call : Call) (child : AccessContextV1), call.apply parent = .ok child →
    (isSubsetOf child parent = true ↔ call.Keeps parent) := by
  rw [isSubsetOf_iff] at hself
  refine ⟨fun calls result hrun hk => ?_, fun call child hcall => ?_⟩
  · rw [isSubsetOf_iff]
    exact applyAll_subset calls parent result hself hrun hk
  · rw [isSubsetOf_iff]
    exact apply_subset_iff hself hcall

/-- A context bound to one region, with two operations. -/
def regionContext : AccessContextV1 where
  contextId := "ctx"
  principalId := "alice"
  grants := {"read", "write"}
  issuedAt := 0
  expiresAt := 100
  narrowing := {"region:eu"}

/-- A read-only child and a delegation of it to one audience. -/
def regionCalls : List Call :=
  [.narrow { operations := some (.one "read"), expiresAt := some 80 },
    .deriveChild { operations := .one "read", audience := some (.one "bot"), expiresAt := 50 } "n"]

theorem derived_within_region :
    ∃ result, applyAll regionContext regionCalls = .ok result ∧ isSubsetOf result regionContext = true := by
  have hkeeps : KeepsAll regionContext regionCalls := by
    refine ⟨?_, ?_, trivial⟩
    · exact (by decide : Keeps regionContext { operations := some (.one "read"), expiresAt := some 80 })
    · change Keeps _ _
      decide
  exact ⟨_, rfl, (derived_within_parent regionContext (by decide)).1 regionCalls _ rfl hkeeps⟩

/-- Naming another region drops the region the parent was bound to. -/
theorem narrow_drops_region :
    isSubsetOf regionContext regionContext = true ∧
    ∃ child, applyAll regionContext [.narrow { narrowing := some (.one "region:us") }] = .ok child ∧
      isSubsetOf child regionContext = false :=
  ⟨by decide, regionContext.narrowed { narrowing := some (.one "region:us") }, by decide, by decide⟩

end AccessContext
