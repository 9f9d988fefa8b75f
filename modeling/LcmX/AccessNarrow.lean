import LcmX.AccessValidation
import LcmX.Lib.Fallible
import Mathlib.Data.List.TakeWhile

/-!
# What a narrowing does to each dimension

A token with a value is `dimension:value`, so the values of one dimension are
read off the token set directly. The inversion lemma `narrow_spec` says once
what a call that does not raise has checked.
-/
namespace AccessContext

open Fallible

/-! ## Tokens -/

theorem takeWhile_token (d v : List Char) (h : ':' ∉ d) :
    (d ++ ':' :: v).takeWhile (fun c => c ≠ ':') = d ∧
      (d ++ ':' :: v).dropWhile (fun c => c ≠ ':') = ':' :: v := by
  induction d with
  | nil => simp
  | cons c d ih =>
    have hc : c ≠ ':' := fun he => h (by simp [he])
    have hd : ':' ∉ d := fun hm => h (List.mem_cons_of_mem _ hm)
    have hc' : decide (c ≠ ':') = true := decide_eq_true hc
    obtain ⟨h1, h2⟩ := ih hd
    simp only [List.cons_append, List.takeWhile_cons, List.dropWhile_cons, hc', if_true, h1, h2, and_self]

theorem toList_colon : ":".toList = [':'] := by decide

theorem dimension_token (d v : String) (h : ':' ∉ d.toList) : dimension (d ++ ":" ++ v) = d := by
  simp only [dimension, String.toList_append, toList_colon, List.append_assoc, List.singleton_append,
    (takeWhile_token d.toList v.toList h).1, String.ofList_toList]

theorem value_token (d v : String) (h : ':' ∉ d.toList) : value (d ++ ":" ++ v) = v := by
  simp only [value, String.toList_append, toList_colon, List.append_assoc, List.singleton_append,
    (takeWhile_token d.toList v.toList h).2, List.drop_succ_cons, List.drop_zero, String.ofList_toList]

/-- A token with a value is its dimension, a colon and its value. -/
theorem token_eq (t : String) (h : value t ≠ "") : t = dimension t ++ ":" ++ value t := by
  apply String.toList_injective
  simp only [String.toList_append, toList_colon, dimension, value, String.toList_ofList]
  cases hd : t.toList.dropWhile (fun c => c ≠ ':') with
  | nil =>
    rw [value, hd] at h
    exact absurd rfl h
  | cons c rest =>
    have hc : c = ':' := by
      have := List.head?_dropWhile_not (fun c => c ≠ ':') t.toList
      rw [hd] at this
      simpa using this
    subst hc
    rw [List.append_assoc, List.singleton_append, List.drop_succ_cons, List.drop_zero, ← hd,
      List.takeWhile_append_dropWhile]

/-- The values of a dimension are those of its tokens. -/
theorem mem_dimensionValues (tokens : Finset String) (d v : String) (hd : ':' ∉ d.toList) :
    v ∈ dimensionValues tokens d ↔ v ≠ "" ∧ d ++ ":" ++ v ∈ tokens := by
  have happ : ∀ v, (d ++ ":" ++ v).toList = (d ++ ":").toList ++ v.toList := fun v => String.toList_append
  simp only [dimensionValues, Finset.mem_image, Finset.mem_filter]
  constructor
  · rintro ⟨t, ⟨ht, ⟨rest, hrest⟩, hv⟩, rfl⟩
    have heq : t = d ++ ":" ++ String.ofList rest := by
      apply String.toList_injective
      rw [← hrest, happ, String.toList_ofList]
    have hval : value t = String.ofList rest := by rw [heq, value_token d _ hd]
    rw [hval, ← heq]
    exact ⟨hval ▸ hv, ht⟩
  · rintro ⟨hv, ht⟩
    refine ⟨d ++ ":" ++ v, ⟨ht, ?_, ?_⟩, value_token d v hd⟩
    · rw [happ]
      exact List.prefix_append _ _
    · rwa [value_token d v hd]

theorem colon_operation : ':' ∉ "operation".toList := by decide
theorem colon_collection : ':' ∉ "collection".toList := by decide
theorem colon_audience : ':' ∉ "audience".toList := by decide

theorem token_inj {d d' v v' : String} (hd : ':' ∉ d.toList) (hd' : ':' ∉ d'.toList) :
    d ++ ":" ++ v = d' ++ ":" ++ v' ↔ d = d' ∧ v = v' := by
  constructor
  · intro h
    have h1 := congrArg dimension h
    have h2 := congrArg value h
    rw [dimension_token d v hd, dimension_token d' v' hd'] at h1
    rw [value_token d v hd, value_token d' v' hd'] at h2
    exact ⟨h1, h2⟩
  · rintro ⟨rfl, rfl⟩
    rfl

theorem empty_notMem_dimensionValues (tokens : Finset String) (d : String) : "" ∉ dimensionValues tokens d := by
  intro h
  simp only [dimensionValues, Finset.mem_image, Finset.mem_filter] at h
  obtain ⟨t, ⟨-, -, hne⟩, hv⟩ := h
  exact hne hv

/-! ## The dimensions of the child -/

/-- The set a typed argument gives for a dimension. -/
def NarrowArgs.typedValues (args : NarrowArgs) (d : String) : Option (Finset String) :=
  if d = "operation" then args.requestedOperations.map Strings.freeze
  else if d = "collection" then args.requestedCollections.map Strings.freeze
  else if d = "audience" then args.audience.map Strings.freeze
  else none

section Dimensions

variable (self : AccessContextV1) (args : NarrowArgs)

theorem typedValues_operation : args.typedValues "operation" = args.requestedOperations.map Strings.freeze := by
  rw [NarrowArgs.typedValues, if_pos rfl]

theorem typedValues_collection : args.typedValues "collection" = args.requestedCollections.map Strings.freeze := by
  rw [NarrowArgs.typedValues, if_neg (by decide), if_pos rfl]

theorem typedValues_audience : args.typedValues "audience" = args.audience.map Strings.freeze := by
  rw [NarrowArgs.typedValues, if_neg (by decide), if_neg (by decide), if_pos rfl]

theorem typedValues_unmodelled {d : String} (h : d ∉ modelledNarrowingDimensions) : args.typedValues d = none := by
  simp only [modelledNarrowingDimensions, Finset.mem_insert, Finset.mem_singleton, not_or] at h
  rw [NarrowArgs.typedValues, if_neg h.1, if_neg h.2.1, if_neg h.2.2]

theorem childGrants_some {s : Strings} (h : args.requestedOperations = some s) : self.childGrants args = s.freeze := by
  rw [AccessContextV1.childGrants, h]

theorem childCollections_some {s : Strings} (h : args.requestedCollections = some s) :
    self.childCollections args = s.freeze := by
  rw [AccessContextV1.childCollections, h]

theorem childAudience_some {s : Strings} (h : args.audience = some s) : self.childAudience args = s.freeze := by
  rw [AccessContextV1.childAudience, h]

/-- One typed argument writes the tokens of its own dimension only. -/
theorem mem_typed_tokens (o : Option Strings) (s : Finset String) (e d v : String) (he : ':' ∉ e.toList)
    (hd : ':' ∉ d.toList) (hs : ∀ x, o = some x → s = x.freeze) :
    d ++ ":" ++ v ∈ (if o.isSome then s.image (fun x => e ++ ":" ++ x) else ∅) ↔
      d = e ∧ ∃ x, o.map Strings.freeze = some x ∧ v ∈ x := by
  cases o with
  | none => simp
  | some x =>
    simp only [Option.isSome_some, if_true, Finset.mem_image, token_inj he hd, hs x rfl, Option.map_some,
      Option.some.injEq]
    constructor
    · rintro ⟨y, hy, rfl, rfl⟩
      exact ⟨rfl, x.freeze, rfl, hy⟩
    · rintro ⟨rfl, y, rfl, hv⟩
      exact ⟨v, hv, rfl, rfl⟩

theorem mem_childNarrowing (d v : String) (hd : ':' ∉ d.toList) :
    d ++ ":" ++ v ∈ self.childNarrowing args ↔
      (d ++ ":" ++ v ∈ self.narrowing ∧ d ∉ args.narrowedDimensions) ∨
      (∃ s, args.typedValues d = some s ∧ v ∈ s) ∨ d ++ ":" ++ v ∈ args.requestedNarrowing := by
  have ho : ∀ x, "operation:" ++ x = "operation" ++ ":" ++ x := fun x => rfl
  have hc : ∀ x, "collection:" ++ x = "collection" ++ ":" ++ x := fun x => rfl
  have ha : ∀ x, "audience:" ++ x = "audience" ++ ":" ++ x := fun x => rfl
  simp only [AccessContextV1.childNarrowing, Finset.mem_union, Finset.mem_filter, dimension_token d v hd, ho, hc, ha,
    mem_typed_tokens _ _ "operation" d v colon_operation hd (fun x h => childGrants_some self args h),
    mem_typed_tokens _ _ "collection" d v colon_collection hd (fun x h => childCollections_some self args h),
    mem_typed_tokens _ _ "audience" d v colon_audience hd (fun x h => childAudience_some self args h), or_assoc]
  apply or_congr_right
  have htyped : (∃ s, args.typedValues d = some s ∧ v ∈ s) ↔
      (d = "operation" ∧ ∃ x, args.requestedOperations.map Strings.freeze = some x ∧ v ∈ x) ∨
      (d = "collection" ∧ ∃ x, args.requestedCollections.map Strings.freeze = some x ∧ v ∈ x) ∨
      (d = "audience" ∧ ∃ x, args.audience.map Strings.freeze = some x ∧ v ∈ x) := by
    by_cases h1 : d = "operation"
    · subst h1; rw [typedValues_operation]; simp
    by_cases h2 : d = "collection"
    · subst h2; rw [typedValues_collection]; simp
    by_cases h3 : d = "audience"
    · subst h3; rw [typedValues_audience]; simp
    · rw [typedValues_unmodelled args (by simp [modelledNarrowingDimensions, h1, h2, h3])]
      simp [h1, h2, h3]
  rw [htyped, or_assoc, or_assoc]

theorem mem_narrowedDimensions (d : String) (hd : ':' ∉ d.toList) :
    d ∈ args.narrowedDimensions ↔
      (args.typedValues d).isSome ∨ dimensionValues args.requestedNarrowing d ≠ ∅ := by
  have htokens : d ∈ (args.requestedNarrowing.filter (fun t => value t ≠ "")).image dimension ↔
      dimensionValues args.requestedNarrowing d ≠ ∅ := by
    rw [← Finset.nonempty_iff_ne_empty]
    constructor
    · intro h
      obtain ⟨t, ht, rfl⟩ := Finset.mem_image.mp h
      obtain ⟨htm, htv⟩ := Finset.mem_filter.mp ht
      refine ⟨value t, (mem_dimensionValues _ _ _ hd).mpr ⟨htv, ?_⟩⟩
      rwa [← token_eq t htv]
    · rintro ⟨v, hv⟩
      obtain ⟨hne, hmem⟩ := (mem_dimensionValues _ _ _ hd).mp hv
      refine Finset.mem_image.mpr ⟨d ++ ":" ++ v, Finset.mem_filter.mpr ⟨hmem, ?_⟩, dimension_token d v hd⟩
      rwa [value_token d v hd]
  have hite : ∀ (o : Option Strings) (e : String),
      d ∈ (if o.isSome then ({e} : Finset String) else ∅) ↔ d = e ∧ o.isSome := by
    intro o e
    cases o <;> simp
  simp only [NarrowArgs.narrowedDimensions, Finset.mem_union, htokens, hite]
  by_cases h1 : d = "operation"
  · subst h1; rw [typedValues_operation]; simp [or_comm]
  by_cases h2 : d = "collection"
  · subst h2; rw [typedValues_collection]; simp [or_comm]
  by_cases h3 : d = "audience"
  · subst h3; rw [typedValues_audience]; simp [or_comm]
  · rw [typedValues_unmodelled args (by simp [modelledNarrowingDimensions, h1, h2, h3])]
    simp [h1, h2, h3]

/-- The values of a dimension the call narrows. -/
def NarrowArgs.newValues (args : NarrowArgs) (d : String) : Finset String :=
  ((args.typedValues d).getD ∅).erase "" ∪ dimensionValues args.requestedNarrowing d

/-- A dimension is replaced as a whole or kept as it is. -/
theorem dimensionValues_childNarrowing (d : String) (hd : ':' ∉ d.toList) :
    dimensionValues (self.childNarrowing args) d =
      if d ∈ args.narrowedDimensions then args.newValues d else dimensionValues self.narrowing d := by
  ext v
  rw [mem_dimensionValues _ _ _ hd, mem_childNarrowing self args d v hd]
  by_cases h : d ∈ args.narrowedDimensions
  · simp only [h, not_true, and_false, false_or, if_true, NarrowArgs.newValues, Finset.mem_union, Finset.mem_erase,
      mem_dimensionValues _ _ _ hd, ← and_or_left]
    apply and_congr_right
    intro _
    apply or_congr_left
    cases args.typedValues d <;> simp
  · have hnot := h
    rw [mem_narrowedDimensions args d hd, not_or, Option.not_isSome_iff_eq_none, not_not] at hnot
    have hreq : v ≠ "" → d ++ ":" ++ v ∉ args.requestedNarrowing := by
      intro hv hm
      have : v ∈ dimensionValues args.requestedNarrowing d := (mem_dimensionValues _ _ _ hd).mpr ⟨hv, hm⟩
      rw [hnot.2] at this
      exact absurd this (Finset.notMem_empty v)
    rw [if_neg h, mem_dimensionValues _ _ _ hd, hnot.1]
    constructor
    · rintro ⟨hv, hm | ⟨s, hs, -⟩ | hm⟩
      · exact ⟨hv, hm.1⟩
      · cases hs
      · exact absurd hm (hreq hv)
    · rintro ⟨hv, hm⟩
      exact ⟨hv, Or.inl ⟨hm, h⟩⟩

end Dimensions

/-! ## What a call that returns has checked -/

theorem reject_ok {cond : Prop} [Decidable cond] {message : String} {u : Unit} :
    reject cond message = .ok u ↔ ¬ cond := by
  unfold reject
  split
  · rename_i h; simp [h]
  · rename_i h; simp [h]

theorem reject_bind_ok {β : Type} {cond : Prop} [Decidable cond] {message : String}
    {f : Unit → Except ScopeMismatchError β} {b : β} :
    (reject cond message >>= f) = .ok b ↔ ¬ cond ∧ f () = .ok b := by
  rw [bind_ok]
  constructor
  · rintro ⟨_, hc, hf⟩
    exact ⟨reject_ok.mp hc, hf⟩
  · rintro ⟨hc, hf⟩
    exact ⟨(), reject_ok.mpr hc, hf⟩

structure Narrows (context : AccessContextV1) (args : NarrowArgs) : Prop where
  operations : args.requestedOperations.isSome → context.childGrants args ⊆ context.operationAllowlist
  collections_nonempty : args.requestedCollections.isSome → context.childCollections args ≠ ∅
  collections : args.requestedCollections.isSome → context.collectionAllowlist ≠ ∅ →
    context.childCollections args ⊆ context.collectionAllowlist
  audience_nonempty : args.audience.isSome → context.childAudience args ≠ ∅
  audience : args.audience.isSome → context.audience ≠ ∅ → context.childAudience args ⊆ context.audience
  expiry : context.childExpiry args ≤ context.expiresAt
  default_parent : args.defaultWriteCollectionId.isSome → context.collectionAllowlist ≠ ∅ →
    context.childDefault args ∈ context.collectionAllowlist
  default_bound : context.collectionAllowlist = ∅ → args.requestedCollections = none →
    context.childDefault args = context.defaultWriteCollectionId
  default_effective : context.effectiveCollections args ≠ ∅ →
    context.childDefault args ∈ context.effectiveCollections args
  token_operation : ∀ t ∈ args.requestedNarrowing, dimension t = "operation" →
    value t ∈ (if args.requestedOperations.isSome then context.childGrants args else context.operationAllowlist)
  token_collection : ∀ t ∈ args.requestedNarrowing, dimension t = "collection" →
    (args.requestedCollections.isSome ∨ context.collectionAllowlist ≠ ∅) → value t ∈ context.childCollections args
  token_audience : ∀ t ∈ args.requestedNarrowing, dimension t = "audience" → context.audience ≠ ∅ →
    value t ∈ context.childAudience args

section Spec

variable {self : AccessContextV1} {args : NarrowArgs}

theorem checkDefault_spec {u : Unit} (h : self.checkDefault args = .ok u) :
    (args.defaultWriteCollectionId.isSome → self.collectionAllowlist ≠ ∅ →
      self.childDefault args ∈ self.collectionAllowlist) ∧
    (self.collectionAllowlist = ∅ → args.requestedCollections = none →
      self.childDefault args = self.defaultWriteCollectionId) ∧
    (self.effectiveCollections args ≠ ∅ → self.childDefault args ∈ self.effectiveCollections args) := by
  rw [AccessContextV1.checkDefault] at h
  unfold AccessContextV1.childDefault
  cases hd : args.defaultWriteCollectionId with
  | none =>
    rw [hd] at h
    rw [reject_ok, not_and, not_not] at h
    exact ⟨by simp, fun _ _ => rfl, h⟩
  | some d =>
    rw [hd] at h
    simp only [reject_bind_ok, reject_ok, not_and, not_not] at h
    exact ⟨fun _ => h.1, h.2.1, h.2.2⟩

/-- Inversion of `narrow`: the checks passed and the child is built from them. -/
theorem narrow_spec {child : AccessContextV1} (h : self.narrow args = .ok child) :
    Narrows self args ∧ child = self.narrowed args := by
  simp only [AccessContextV1.narrow, bind_ok] at h
  obtain ⟨_, hops, _, hcol, _, haud, _, hexp, _, -, _, hdef, _, htok, hret⟩ := h
  simp only [AccessContextV1.checkOperations, reject_bind_ok, reject_ok, not_and, not_not] at hops
  simp only [AccessContextV1.checkCollections, reject_bind_ok, reject_ok, not_and, not_not] at hcol
  simp only [AccessContextV1.checkAudience, reject_bind_ok, reject_ok, not_and, not_not] at haud
  simp only [AccessContextV1.checkExpiry, reject_ok, not_or, not_lt, gt_iff_lt] at hexp
  simp only [AccessContextV1.checkTokens, reject_bind_ok, reject_ok, not_exists, not_and, not_not] at htok
  obtain ⟨hdp, hdb, hde⟩ := checkDefault_spec hdef
  refine ⟨?_, ?_⟩
  · exact
      { operations := hops.2
        collections_nonempty := hcol.1
        collections := hcol.2
        audience_nonempty := haud.1
        audience := haud.2
        expiry := hexp.1
        default_parent := hdp
        default_bound := hdb
        default_effective := hde
        token_operation := htok.1
        token_collection := htok.2.1
        token_audience := htok.2.2 }
  · simpa [pure, Except.pure] using hret.symm

theorem mem_requested_token {d v : String} (hd : ':' ∉ d.toList)
    (h : v ∈ dimensionValues args.requestedNarrowing d) :
    ∃ t ∈ args.requestedNarrowing, dimension t = d ∧ value t = v := by
  obtain ⟨-, hm⟩ := (mem_dimensionValues _ _ _ hd).mp h
  exact ⟨_, hm, dimension_token d v hd, value_token d v hd⟩

theorem operationAllowlist_subset_grants (context : AccessContextV1) : context.operationAllowlist ⊆ context.grants := by
  unfold AccessContextV1.operationAllowlist
  simp only
  split
  · exact Finset.inter_subset_right
  · exact Finset.Subset.refl _

/-- The operation tokens of the child, when the typed argument is given. -/
theorem newValues_operation_some (h : Narrows self args) {s : Strings} (hs : args.requestedOperations = some s) :
    args.newValues "operation" = s.freeze.erase "" := by
  rw [NarrowArgs.newValues, typedValues_operation, hs, Option.map_some, Option.getD_some]
  apply Finset.union_eq_left.mpr
  intro v hv
  obtain ⟨t, ht, hdim, rfl⟩ := mem_requested_token colon_operation hv
  have hin := h.token_operation t ht hdim
  rw [hs, Option.isSome_some, if_pos rfl, childGrants_some self args hs] at hin
  exact Finset.mem_erase.mpr ⟨fun he => empty_notMem_dimensionValues _ _ (he ▸ hv), hin⟩

theorem newValues_operation_none (hs : args.requestedOperations = none) :
    args.newValues "operation" = dimensionValues args.requestedNarrowing "operation" := by
  rw [NarrowArgs.newValues, typedValues_operation, hs]
  simp

theorem requested_operations_subset (h : Narrows self args) (hs : args.requestedOperations = none) :
    dimensionValues args.requestedNarrowing "operation" ⊆ self.operationAllowlist := by
  intro v hv
  obtain ⟨t, ht, hdim, rfl⟩ := mem_requested_token colon_operation hv
  have hin := h.token_operation t ht hdim
  rwa [hs] at hin

theorem operation_narrowed_iff (args : NarrowArgs) : "operation" ∈ args.narrowedDimensions ↔
    args.requestedOperations.isSome ∨ dimensionValues args.requestedNarrowing "operation" ≠ ∅ := by
  rw [mem_narrowedDimensions args "operation" colon_operation, typedValues_operation, Option.isSome_map]

/-- The operation dimension of a child whose operations are given. -/
theorem operationAllowlist_some (h : Narrows self args) {s : Strings} (hs : args.requestedOperations = some s) :
    (self.narrowed args).operationAllowlist = if s.freeze.erase "" ≠ ∅ then s.freeze.erase "" else s.freeze := by
  have hn : "operation" ∈ args.narrowedDimensions := (operation_narrowed_iff args).mpr (Or.inl (by simp [hs]))
  have hvals : dimensionValues (self.narrowed args).narrowing "operation" = s.freeze.erase "" := by
    have h1 := dimensionValues_childNarrowing self args "operation" colon_operation
    rw [if_pos hn, newValues_operation_some h hs] at h1
    exact h1
  have hg : (self.narrowed args).grants = s.freeze := childGrants_some self args hs
  simp only [AccessContextV1.operationAllowlist, hvals, hg]
  rw [Finset.inter_eq_left.mpr (Finset.erase_subset _ _)]

/-- Without a typed argument the tokens replace the operations or leave them. -/
theorem operationAllowlist_none (h : Narrows self args) (hs : args.requestedOperations = none) :
    (self.narrowed args).operationAllowlist =
      if dimensionValues args.requestedNarrowing "operation" ≠ ∅
      then dimensionValues args.requestedNarrowing "operation" else self.operationAllowlist := by
  have h1 := dimensionValues_childNarrowing self args "operation" colon_operation
  have hg : (self.narrowed args).grants = self.grants := by
    change self.childGrants args = _
    rw [AccessContextV1.childGrants, hs]
  have hnar : (self.narrowed args).narrowing = self.childNarrowing args := rfl
  have hiff := operation_narrowed_iff args
  rw [hs] at hiff
  simp only [Option.isSome_none, Bool.false_eq_true, false_or] at hiff
  by_cases hR : dimensionValues args.requestedNarrowing "operation" = ∅
  · rw [if_neg (fun hn => (hiff.mp hn) hR)] at h1
    simp only [AccessContextV1.operationAllowlist, hnar, h1, hg, hR, ne_eq, not_true, if_false]
  · rw [if_pos (hiff.mpr hR), newValues_operation_none hs] at h1
    have hsub := Finset.Subset.trans (requested_operations_subset h hs) (operationAllowlist_subset_grants self)
    simp only [AccessContextV1.operationAllowlist, hnar, h1, hg, ne_eq, hR, not_false_eq_true, if_true]
    exact Finset.inter_eq_left.mpr hsub

theorem narrowed_operations (h : Narrows self args) :
    (self.narrowed args).operationAllowlist ⊆ self.operationAllowlist := by
  cases hs : args.requestedOperations with
  | none =>
    rw [operationAllowlist_none h hs]
    split
    · exact requested_operations_subset h hs
    · exact Finset.Subset.refl _
  | some s =>
    have hsub := h.operations (by simp [hs])
    rw [childGrants_some self args hs] at hsub
    rw [operationAllowlist_some h hs]
    split
    · exact Finset.Subset.trans (Finset.erase_subset _ _) hsub
    · exact hsub

theorem narrowed_grants (h : Narrows self args) : (self.narrowed args).grants ⊆ self.grants := by
  change self.childGrants args ⊆ self.grants
  cases hs : args.requestedOperations with
  | none =>
    rw [AccessContextV1.childGrants, hs]
  | some s => exact Finset.Subset.trans (h.operations (by simp [hs])) (operationAllowlist_subset_grants self)

/-- A narrowing of a context whose tokens are granted has granted tokens. -/
theorem narrowed_ungranted (h : Narrows self args) (hself : ungrantedOperations self = ∅) :
    ungrantedOperations (self.narrowed args) = ∅ := by
  have h1 := dimensionValues_childNarrowing self args "operation" colon_operation
  have hnar : (self.narrowed args).narrowing = self.childNarrowing args := rfl
  rw [ungrantedOperations, Finset.sdiff_eq_empty_iff_subset] at hself ⊢
  rw [hnar, h1]
  cases hs : args.requestedOperations with
  | none =>
    have hg : (self.narrowed args).grants = self.grants := by
      change self.childGrants args = _
      rw [AccessContextV1.childGrants, hs]
    rw [hg]
    split
    · rw [newValues_operation_none hs]
      exact Finset.Subset.trans (requested_operations_subset h hs) (operationAllowlist_subset_grants self)
    · exact hself
  | some s =>
    have hg : (self.narrowed args).grants = s.freeze := childGrants_some self args hs
    rw [if_pos ((operation_narrowed_iff args).mpr (Or.inl (by simp [hs]))), newValues_operation_some h hs, hg]
    exact Finset.erase_subset _ _

/-! ## Collections -/

theorem collection_narrowed_iff (args : NarrowArgs) : "collection" ∈ args.narrowedDimensions ↔
    args.requestedCollections.isSome ∨ args.requestedCollectionTokens ≠ ∅ := by
  rw [mem_narrowedDimensions args "collection" colon_collection, typedValues_collection, Option.isSome_map]
  rfl

/-- The collections of a child whose collections are given. -/
theorem collectionAllowlist_some (h : Narrows self args) {s : Strings} (hs : args.requestedCollections = some s) :
    (self.narrowed args).collectionAllowlist = s.freeze.erase "" := by
  have h1 := dimensionValues_childNarrowing self args "collection" colon_collection
  rw [if_pos ((collection_narrowed_iff args).mpr (Or.inl (by simp [hs])))] at h1
  have hnew : args.newValues "collection" = s.freeze.erase "" := by
    rw [NarrowArgs.newValues, typedValues_collection, hs, Option.map_some, Option.getD_some]
    apply Finset.union_eq_left.mpr
    intro v hv
    obtain ⟨t, ht, hdim, rfl⟩ := mem_requested_token colon_collection hv
    have hin := h.token_collection t ht hdim (Or.inl (by simp [hs]))
    rw [childCollections_some self args hs] at hin
    exact Finset.mem_erase.mpr ⟨fun he => empty_notMem_dimensionValues _ _ (he ▸ hv), hin⟩
  exact h1.trans hnew

theorem collectionAllowlist_none (hs : args.requestedCollections = none) :
    (self.narrowed args).collectionAllowlist =
      if args.requestedCollectionTokens ≠ ∅ then args.requestedCollectionTokens else self.collectionAllowlist := by
  have h1 := dimensionValues_childNarrowing self args "collection" colon_collection
  have hiff := collection_narrowed_iff args
  rw [hs] at hiff
  simp only [Option.isSome_none, Bool.false_eq_true, false_or] at hiff
  have hnew : args.newValues "collection" = args.requestedCollectionTokens := by
    rw [NarrowArgs.newValues, typedValues_collection, hs]
    simp [NarrowArgs.requestedCollectionTokens]
  rw [hnew] at h1
  simp only [hiff] at h1
  exact h1

theorem requested_collections_subset (h : Narrows self args) (hs : args.requestedCollections = none)
    (hne : self.collectionAllowlist ≠ ∅) : args.requestedCollectionTokens ⊆ self.collectionAllowlist := by
  intro v hv
  obtain ⟨t, ht, hdim, rfl⟩ := mem_requested_token colon_collection hv
  have hin := h.token_collection t ht hdim (Or.inr hne)
  rwa [AccessContextV1.childCollections, hs] at hin

theorem isNarrower_iff (child parent : Finset String) :
    isNarrower child parent = true ↔ parent = ∅ ∨ (child ≠ ∅ ∧ child ⊆ parent) := by
  simp [isNarrower]

theorem narrowed_collections (h : Narrows self args) :
    isNarrower (self.narrowed args).collectionAllowlist self.collectionAllowlist = true := by
  rw [isNarrower_iff]
  by_cases hp : self.collectionAllowlist = ∅
  · exact Or.inl hp
  right
  cases hs : args.requestedCollections with
  | none =>
    rw [collectionAllowlist_none hs]
    split
    · rename_i hR
      exact ⟨hR, requested_collections_subset h hs hp⟩
    · exact ⟨hp, Finset.Subset.refl _⟩
  | some s =>
    have hsub := h.collections (by simp [hs]) hp
    have hne := h.collections_nonempty (by simp [hs])
    rw [childCollections_some self args hs] at hsub hne
    have herase : s.freeze.erase "" = s.freeze :=
      Finset.erase_eq_of_notMem (fun hm => empty_notMem_dimensionValues _ _ (hsub hm))
    rw [collectionAllowlist_some h hs, herase]
    exact ⟨hne, hsub⟩

end Spec

end AccessContext
