import LcmX.QueryViewSteps

/-!
# Fencing of the builds

A build holds its view by a nonce. Only the end of the lifetime of a view leaves the nonce
where it is; in runs where it meets no build, a nonce stands for a build, a build is ended
by its own token or by what takes its ground away, and a token ends at most one build.
-/
namespace QueryView

variable {H M : Type} [DecidableEq H]

/-- No view is expired while it is built. -/
def SparesBuilds (db : Db H) : Op H M → Prop
  | .expire cutoff limit => ∀ id ∈ expiring cutoff limit db, ∀ view, db.views.get id = some view →
    view.status ≠ .building
  | .lookupExpire viewId version _ => ∀ view, db.views.get viewId = some view →
        view.currentVersion = version → view.status ≠ .building
  | _ => True

/-! ## What a call does to one view -/

/-- A row that holds no build. -/
structure Idle (view : View) : Prop where
  status : view.status ≠ .building
  nonce : view.buildNonce = []

/-- The view that a claim is for. -/
def Op.claimedView (host : Host H M) : Op H M → Option H
  | .claim canonical _ _ _ => some (host.sha256 canonical)
  | _ => none

/-- What becomes of the row of a view. -/
inductive RowStep (host : Host H M) (op : Op H M) (id : H) : Option View → Option View → Prop
  | same (row : Option View) : RowStep host op id row row
  | gone (row : Option View) : RowStep host op id row none
  | claimed (row : Option View) (nonce : Text) (view : View) (hop : op.nonce = some nonce)
      (hid : op.claimedView host = some id)
      (hnonce : view.buildNonce = nonce) (hstatus : view.status = .building) : RowStep host op id row (some view)
  | idle (view view' : View) (hidle : Idle view') : RowStep host op id (some view) (some view')
  | kept (view view' : View) (hstatus : view.status ≠ .building ∧ view'.status ≠ .building)
      (hnonce : view'.buildNonce = view.buildNonce) :
      RowStep host op id (some view) (some view')

theorem rowStep_updateAll (host : Host H M) (op : Op H M) (views : KeyedTable H View)
    (guard : H → View → Bool) (f : View → View) (id : H)
    (h : ∀ view, views.get id = some view → guard id view = true → RowStep host op id (some view) (some (f view))) :
    RowStep host op id (views.get id) ((views.updateAll guard f).get id) := by
  rw [KeyedTable.get_updateAll]
  cases hview : views.get id with
  | none => exact .same none
  | some view =>
    rw [Option.map_some]
    split
    · rename_i hguard
      exact h view hview hguard
    · exact .same _

theorem rowStep_updateWhere (host : Host H M) (op : Op H M) (views : KeyedTable H View) (k : H)
    (guard : View → Bool) (f : View → View) (id : H)
    (h : ∀ view, id = k → views.get id = some view → guard view = true →
      RowStep host op id (some view) (some (f view))) :
    RowStep host op id (views.get id) ((views.updateWhere k guard f).get id) := by
  rw [KeyedTable.get_updateWhere]
  split
  · rename_i hid
    subst hid
    cases hview : views.get id with
    | none => exact .same none
    | some view =>
      rw [Option.map_some]
      split
      · rename_i hguard
        exact h view rfl hview hguard
      · exact .same _
  · exact .same _

theorem toStale_idle (reason : Text) (now : Rat) (view : View) : Idle (view.toStale reason now) :=
  ⟨by simp [View.toStale], rfl⟩

theorem toFailed_idle (reason : Text) (now : Rat) (view : View) : Idle (view.toFailed reason now) :=
  ⟨by simp [View.toFailed], rfl⟩

theorem toReady_idle (version : Nat) (now expiresAt : Rat) (view : View) :
    Idle (view.toReady version now expiresAt) := ⟨by simp [View.toReady], rfl⟩

theorem rowStep_stale (host : Host H M) (op : Op H M) (db : Db H) (storeId : Nat) (reason : Text) (now : Rat) (id : H) :
    RowStep host op id (db.views.get id) ((staleDependents db storeId reason now).get id) :=
  rowStep_updateAll host op _ _ _ id fun view _ _ => .idle view _ (toStale_idle _ _ _)

theorem claim_row {host : Host H M} {canonical : Text} {snapshot : CorpusSnapshot} {nonce : Text}
    {now : Rat} {db : Db H} (id : H) :
    (claimBuild host canonical snapshot nonce now db).1.views.get id = db.views.get id ∨
      (id = host.sha256 canonical ∧ ∃ view,
      (claimBuild host canonical snapshot nonce now db).1.views.get id = some view ∧
        view = claimRow canonical nonce now (db.views.get id) ∧ view.buildNonce = nonce) := by
  simp only [claimBuild]
  split
  · exact .inl rfl
  · split
    · exact .inl rfl
    · rename_i hnonce
      rw [get_claimed]
      split
      · rename_i hid
        subst hid
        exact .inr ⟨rfl, _, rfl, rfl, of_not_not hnonce⟩
      · exact .inl rfl

theorem claimRow_building {canonical nonce : Text} {now : Rat} {old : Option View}
    (h : ∀ view, old = some view → view.buildNonce = nonce → view.status = .building)
    (hnonce : (claimRow canonical nonce now old).buildNonce = nonce) :
    (claimRow canonical nonce now old).status = .building := by
  cases old with
  | none => rfl
  | some view =>
    simp only [claimRow] at hnonce ⊢
    split
    · rfl
    · rename_i hlive
      rw [if_neg hlive] at hnonce
      exact h view rfl hnonce

/-- One call, one row, while no build is expired. -/
theorem apply_row (host : Host H M) (db : Db H) (op : Op H M) (hspares : SparesBuilds db op)
    (hfresh : ∀ nonce, op.nonce = some nonce → ∀ id view, db.views.get id = some view →
      view.buildNonce ≠ nonce) (id : H) :
    RowStep host op id (db.views.get id) ((op.apply host db).views.get id) := by
  cases op with
  | insert storeId message now =>
    simp only [Op.apply, insertMessage]
    split <;> exact .same _
  | update storeId message now =>
    simp only [Op.apply, updateMessage]
    split
    · exact rowStep_stale host _ db _ _ _ id
    · exact .same _
  | delete storeId now =>
    simp only [Op.apply, deleteMessage]
    split
    · exact .same _
    · split
      · exact .same _
      · exact rowStep_stale host _ db _ _ _ id
  | claim canonical snapshot nonce now =>
    rcases @claim_row _ _ _ host canonical snapshot nonce now db id with hsame | ⟨hid, view, hview, rfl, hnonce⟩
    · simp only [Op.apply, hsame]
      exact .same _
    · simp only [Op.apply, hview]
      exact .claimed _ nonce _ rfl (congrArg some hid.symm) hnonce
        (claimRow_building (fun view hold he => absurd he (hfresh nonce rfl id view hold)) hnonce)
  | publish token publication now =>
    rcases publishReady_effect host token publication now db with ⟨-, owner, versionRow, h⟩ | ⟨-, h | h⟩
    · obtain ⟨now', expiresAt, hviews⟩ := h.views
      simp only [Op.apply, hviews]
      exact rowStep_updateWhere host _ _ _ _ _ id fun view _ _ _ => .idle view _ (toReady_idle _ _ _ _)
    · simp only [Op.apply, h]
      exact .same _
    · simp only [Op.apply, h]
      exact rowStep_updateWhere host _ _ _ _ _ id fun view _ _ _ => .idle view _ (toStale_idle _ _ _)
  | fail token error now =>
    exact rowStep_updateWhere host _ _ _ _ _ id fun view _ _ _ => .idle view _ (toFailed_idle _ _ _)
  | reclaim cutoff => exact rowStep_updateAll host _ _ _ _ id fun view _ _ => .idle view _ (toStale_idle _ _ _)
  | expire cutoff limit =>
    refine rowStep_updateAll host _ _ _ _ id fun view hview hguard => .kept view
      _ ⟨hspares id (of_decide_eq_true hguard) view hview, ?_⟩ rfl
    simp [View.toExpired]
  | purge olderThan limit =>
    simp only [Op.apply, purgeExpired, KeyedTable.get_delete]
    split
    · exact .gone _
    · exact .same _
  | prune retain => exact .same _
  | lookupExpire viewId version now =>
    refine rowStep_updateWhere host _ _ _ _ _ id fun view hid hview hguard => .kept view
      _ ⟨hspares view (hid ▸ hview) ?_, ?_⟩ rfl
    · exact (of_decide_eq_true hguard).1
    · simp [View.toExpired]
  | lookupStale viewId version reason now =>
    exact rowStep_updateWhere host _ _ _ _ _ id fun view _ _ _ => .idle view _ (toStale_idle _ _ _)
  | lookupHit viewId version generation now =>
    refine rowStep_updateWhere host _ _ _ _ _ id fun view _ _ hguard => .kept view _ ?_ rfl
    have hready : view.status = .ready := (of_decide_eq_true hguard).1
    simp [View.hit, hready]
  | assertions valid => exact .same _

/-! ## Nonces -/

/-- A nonce stands for a build; it is one that a claim gave, and no two views share one. A token that won is spent. -/
structure Fenced (h : History H) : Prop where
  building : ∀ id view, h.db.views.get id = some view → (view.buildNonce ≠ [] ↔ view.status = .building)
  nonempty : [] ∉ h.nonces
  given : ∀ id view, h.db.views.get id = some view → view.buildNonce ≠ [] → view.buildNonce ∈ h.nonces
  single : ∀ id id' view view', h.db.views.get id = some view → h.db.views.get id' = some view' → view.buildNonce ≠ [] →
    view.buildNonce = view'.buildNonce → id = id'
  spent : ∀ token ∈ h.wins, token.nonce ∈ h.nonces ∧ ∀ id view, h.db.views.get id = some view →
    view.buildNonce ≠ token.nonce
  nodup : h.wins.Nodup

theorem fenced_start (messages : KeyedTable Nat Message) (assertions : List Text) :
    Fenced (⟨ensureSchema messages assertions, [], [], []⟩ : History H) :=
  ⟨fun _ _ h => (nomatch h), List.not_mem_nil, fun _ _ h => (nomatch h),
    fun _ _ _ _ h => (nomatch h), fun _ h => (nomatch h), List.nodup_nil⟩

section

variable {host : Host H M} {h : History H} {op : Op H M}

theorem Fenced.fresh (hf : Fenced h) (hnew : ∀ nonce, op.nonce = some nonce → nonce ≠ [] ∧ nonce ∉ h.nonces) :
    ∀ nonce, op.nonce = some nonce → ∀ id view, h.db.views.get id = some view → view.buildNonce ≠ nonce := by
  intro nonce hnonce id view hview he
  obtain ⟨hne, hnot⟩ := hnew nonce hnonce
  exact hnot (he ▸ hf.given id view hview (he ▸ hne))

omit [DecidableEq H] in
/-- Where the nonce of a row comes from. -/
theorem RowStep.origin {id : H} {old : Option View} {view' : View}
    (hrow : RowStep host op id old (some view')) (hne : view'.buildNonce ≠ []) :
    (∃ view, old = some view ∧ view.buildNonce = view'.buildNonce) ∨
    (op.nonce = some view'.buildNonce ∧ op.claimedView host = some id) := by
  cases hrow with
  | same => exact .inl ⟨view', rfl, rfl⟩
  | claimed row nonce view hop hid hnonce hstatus => exact .inr ⟨by rw [hop, hnonce], hid⟩
  | idle view view' hidle => exact absurd hidle.nonce hne
  | kept view view' hstatus hnonce => exact .inl ⟨view, rfl, hnonce.symm⟩

variable {db : Db H} {views : KeyedTable H View}

/-- The token of a call that wins owned its view, and leaves it without a nonce. -/
theorem won_spec {token : QueryViewBuildToken H} (hwon : op.won host db = some token) :
    (∃ owner, db.views.get token.viewId = some owner ∧ Owns token owner) ∧
      (∀ view', (op.apply host db).views.get token.viewId = some view' → view'.buildNonce = []) ∧ op.nonce = none := by
  cases op with
  | publish token' publication now =>
    simp only [Op.won] at hwon
    rcases publishReady_effect host token' publication now db with ⟨hok, owner, versionRow, h⟩ | ⟨hno, -⟩
    · rw [hok] at hwon
      obtain rfl := Option.some.inj hwon
      refine ⟨⟨owner, h.current, h.owns⟩, fun view' hview => ?_, rfl⟩
      obtain ⟨now', expiresAt, hviews⟩ := h.views
      simp only [Op.apply, hviews, KeyedTable.get_updateWhere, if_true, h.current, Option.map_some] at hview
      rw [if_pos (by simpa using h.owns)] at hview
      rw [← Option.some.inj hview]
      rfl
    · split at hwon
      · rename_i hok
        exact absurd hok hno
      · cases hwon
  | fail token' error now =>
    simp only [Op.won] at hwon
    split at hwon
    · rename_i hmatch
      obtain rfl := Option.some.inj hwon
      obtain ⟨owner, howner, howns⟩ := (Option.any_eq_true _ _).mp hmatch
      refine ⟨⟨owner, howner, of_decide_eq_true howns⟩, fun view' hview => ?_, rfl⟩
      simp only [Op.apply, markFailed, KeyedTable.get_updateWhere, if_true, howner, Option.map_some, howns] at hview
      rw [← Option.some.inj hview]
      rfl
    · cases hwon
  | insert | update | delete | claim | reclaim | expire | purge | prune
  | lookupExpire | lookupStale | lookupHit | assertions => cases hwon

/-- An operation with a fresh nonce that spares the builds keeps the fencing. -/
theorem Fenced.step (hf : Fenced h)
    (hnew : ∀ nonce, op.nonce = some nonce → nonce ≠ [] ∧ nonce ∉ h.nonces) (hspares : SparesBuilds h.db op) :
    Fenced (h.step host op) := by
  have hrow := apply_row host h.db op hspares (hf.fresh hnew)
  have hold : ∀ id view', (op.apply host h.db).views.get id = some view' → view'.buildNonce ≠ [] →
      (∃ view, h.db.views.get id = some view ∧ view.buildNonce = view'.buildNonce) ∨
        (op.nonce = some view'.buildNonce ∧ op.claimedView host = some id) := by
    intro id view' hview hne
    have hstep := hrow id
    rw [hview] at hstep
    exact hstep.origin hne
  have hkeeps : ∀ nonce ∈ h.nonces, nonce ∈ (h.step host op).nonces := fun nonce hmem => List.mem_append_right _ hmem
  have hadds : ∀ nonce, op.nonce = some nonce → nonce ∈ (h.step host op).nonces := by
    intro nonce hop
    simp [History.step, hop]
  -- a spent nonce is on no row after the call: not kept from before, and no claim gives it again
  have hgone : ∀ nonce ∈ h.nonces, (∀ id view, h.db.views.get id = some view → view.buildNonce ≠ nonce) →
      ∀ id view', (op.apply host h.db).views.get id = some view' → view'.buildNonce ≠ nonce := by
    intro nonce hmem hno id view' hview he
    subst he
    have hne : view'.buildNonce ≠ [] := fun he => hf.nonempty (he ▸ hmem)
    rcases hold id view' hview hne with ⟨view, hget, heq⟩ | ⟨hop, -⟩
    · exact hno id view hget heq
    · exact (hnew _ hop).2 hmem
  refine ⟨fun id view' hview => ?_, ?_, fun id view' hview hne => ?_,
    fun id id' view view' hview hview' hne he => ?_, fun token hwin => ?_, ?_⟩
  · have hstep := hrow id
    rw [show (op.apply host h.db).views.get id = some view' from hview] at hstep
    generalize hrowOld : h.db.views.get id = row at hstep
    cases hstep with
    | same => exact hf.building id view' hrowOld
    | claimed row nonce view hop hid hnonce hstatus => exact iff_of_true (hnonce ▸ (hnew nonce hop).1) hstatus
    | idle view view' hidle => exact iff_of_false (fun hne => hne hidle.nonce) hidle.status
    | kept view view' hstatus hnonce =>
      have hiff := hf.building id view hrowOld
      rw [hnonce]
      exact iff_of_false (fun hne => hstatus.1 (hiff.mp hne)) hstatus.2
  · rw [History.step]
    simp only [List.mem_append, not_or]
    refine ⟨fun hmem => ?_, hf.nonempty⟩
    exact (hnew [] (by simpa using hmem)).1 rfl
  · rcases hold id view' hview hne with ⟨view, hget, heq⟩ | ⟨hop, -⟩
    · exact hkeeps _ (heq ▸ hf.given id view hget (heq ▸ hne))
    · exact hadds _ hop
  · have hne' : view'.buildNonce ≠ [] := he ▸ hne
    rcases hold id view hview hne with ⟨a, ha, hae⟩ | ⟨hop, hid⟩
    · rcases hold id' view' hview' hne' with ⟨b, hb, hbe⟩ | ⟨hop, -⟩
      · exact hf.single id id' a b ha hb (hae ▸ hne) (hae.trans (he.trans hbe.symm))
      · have hmem := hf.given id a ha (hae ▸ hne)
        rw [hae, he] at hmem
        exact absurd hmem (hnew _ hop).2
    · rcases hold id' view' hview' hne' with ⟨b, hb, hbe⟩ | ⟨-, hid'⟩
      · have hmem := hf.given id' b hb (hbe ▸ hne')
        rw [hbe, ← he] at hmem
        exact absurd hmem (hnew _ hop).2
      · exact Option.some.inj (hid.symm.trans hid')
  · rcases List.mem_append.mp hwin with hwin | hwin
    · have hwon : op.won host h.db = some token := by simpa using hwin
      obtain ⟨⟨owner, howner, howns⟩, hcleared, hnoNonce⟩ := won_spec hwon
      have hne : token.nonce ≠ [] := howns.2.2 ▸ (hf.building _ owner howner).mpr howns.1
      have hmem : token.nonce ∈ h.nonces := howns.2.2 ▸ hf.given _ owner howner (howns.2.2.symm ▸ hne)
      refine ⟨hkeeps _ hmem, fun id view' hview he => ?_⟩
      rcases hold id view' hview (he ▸ hne) with ⟨view, hget, heq⟩ | ⟨hop, -⟩
      · have hid : id = token.viewId := hf.single id _ view owner hget howner (heq.trans he ▸ hne)
          (heq.trans (he.trans howns.2.2.symm))
        subst hid
        exact hne (he ▸ hcleared view' hview)
      · rw [hnoNonce] at hop
        cases hop
    · obtain ⟨hmem, hno⟩ := hf.spent token hwin
      exact ⟨hkeeps _ hmem, hgone _ hmem hno⟩
  · rw [History.step]
    cases hwon : op.won host h.db with
    | none => exact hf.nodup
    | some token =>
      refine List.nodup_cons.mpr ⟨fun hwin => ?_, hf.nodup⟩
      obtain ⟨⟨owner, howner, howns⟩, -⟩ := won_spec hwon
      exact (hf.spent token hwin).2 _ owner howner howns.2.2

theorem reaches_fenced (run : Reaches host SparesBuilds h) : Fenced h := by
  induction run with
  | start messages assertions => exact fenced_start messages assertions
  | step op run fresh meets ih => exact ih.step fresh meets

/-! ## Live builds -/

/-- What may end the build that holds a row: its own token, the loss of a source of the current
version, and a clock past the lease. -/
def EndsBuild (host : Host H M) (db : Db H) (id : H) (view : View) : Op H M → Prop
  | .publish token _ _ | .fail token _ _ => token.viewId = id ∧ Owns token view
  | .update storeId _ _ | .delete storeId _ => dependsOn db storeId id view = true
  | .claim canonical _ _ now => host.sha256 canonical = id ∧ view.leaseExpiresAt.getD 0 ≤ now
  | .reclaim cutoff => ∃ lease, view.leaseExpiresAt = some lease ∧ lease < cutoff
  | _ => False

theorem updateWhere_spares {id : H} {view : View} (hview : views.get id = some view) {k : H} {guard : View → Bool}
    (hguard : k = id → guard view = false) (f : View → View) : (views.updateWhere k guard f).get id = some view := by
  rw [KeyedTable.get_updateWhere]
  split
  · rename_i hid
    rw [← hid, hview, Option.map_some, hguard hid.symm]
    rfl
  · exact hview

theorem updateAll_spares {id : H} {view : View} (hview : views.get id = some view) {guard : H → View → Bool}
    (hguard : guard id view = false) (f : View → View) : (views.updateAll guard f).get id = some view := by
  rw [KeyedTable.get_updateAll, hview, Option.map_some, hguard]
  rfl

theorem stale_spares {id : H} {view : View} (hview : db.views.get id = some view) {storeId : Nat}
    (hdepends : ¬ dependsOn db storeId id view = true) (reason : Text) (now : Rat) :
    (staleDependents db storeId reason now).get id = some view :=
  updateAll_spares hview (by simpa using fun _ => hdepends) _

theorem owns_spares {id : H} {view : View} (hview : views.get id = some view) {token : QueryViewBuildToken H}
    (hother : ¬ (token.viewId = id ∧ Owns token view)) (f : View → View) :
    (views.updateWhere token.viewId (fun view => Owns token view) f).get id = some view :=
  updateWhere_spares hview (fun hid => by simpa using fun howns => hother ⟨hid, howns⟩) f

theorem purging_expired {olderThan : Rat} {limit : Nat} {id : H} {view : View} (hview : db.views.get id = some view)
    (h : id ∈ purging olderThan limit db) : view.status = .expired := by
  obtain ⟨⟨id', view'⟩, hmem, rfl⟩ := List.mem_map.mp h
  have hrow := List.mem_filter.mp ((List.perm_insertionSort _ _).subset (List.mem_of_mem_take hmem))
  have hsame : some view' = some view := (KeyedTable.get_eq_some.mpr hrow.1).symm.trans hview
  have hexpired : view'.status = .expired ∧ view'.updatedAt < olderThan := by simpa using hrow.2
  exact Option.some.inj hsame ▸ hexpired.1

theorem claim_spares {canonical : Text} {snapshot : CorpusSnapshot} {nonce : Text} {now : Rat} {id : H} {view : View}
    (hview : db.views.get id = some view) (hbuilding : view.status = .building)
    (hlive : ¬ (host.sha256 canonical = id ∧ view.leaseExpiresAt.getD 0 ≤ now)) :
    (claimBuild host canonical snapshot nonce now db).1.views.get id = some view := by
  rcases @claim_row _ _ _ host canonical snapshot nonce now db id with hsame | ⟨rfl, row, hrow, hclaim, -⟩
  · rw [hsame, hview]
  · have hlease : ¬ (view.status ≠ .building ∨ view.leaseExpiresAt.getD 0 ≤ now) := by
      rintro (hno | hlate)
      · exact hno hbuilding
      · exact hlive ⟨rfl, hlate⟩
    rw [hrow, hclaim, hview, claimRow, if_neg hlease]

theorem publish_spares {token : QueryViewBuildToken H} {publication : Publication H M} {now : Rat}
    {id : H} {view : View}
    (hview : db.views.get id = some view) (hother : ¬ (token.viewId = id ∧ Owns token view)) :
    (publishReady host token publication now db).1.views.get id = some view := by
  rcases publishReady_effect host token publication now db with ⟨-, owner, versionRow, h⟩ | ⟨-, h | h⟩
  · obtain ⟨now', expiresAt, hviews⟩ := h.views
    rw [hviews]
    exact owns_spares hview hother _
  · rw [h]
    exact hview
  · rw [h]
    exact owns_spares hview hother _

/-- A build stays on its row through every call that may not end it. -/
theorem build_spared {op : Op H M} (hspares : SparesBuilds db op) {id : H} {view : View}
    (hview : db.views.get id = some view)
    (hbuilding : view.status = .building) (hends : ¬ EndsBuild host db id view op) :
    (op.apply host db).views.get id = some view := by
  cases op with
  | insert storeId message now =>
    simp only [Op.apply, insertMessage]
    split <;> exact hview
  | update storeId message now =>
    simp only [Op.apply, updateMessage]
    split
    · exact stale_spares hview hends _ _
    · exact hview
  | delete storeId now =>
    simp only [Op.apply, deleteMessage]
    split
    · exact hview
    · split
      · exact hview
      · exact stale_spares hview hends _ _
  | claim canonical snapshot nonce now => exact claim_spares hview hbuilding hends
  | publish token publication now => exact publish_spares hview hends
  | fail token error now => exact owns_spares hview hends _
  | reclaim cutoff =>
    refine updateAll_spares hview ?_ _
    cases hlease : view.leaseExpiresAt with
    | none => simp
    | some lease =>
      have hlive : ¬ lease < cutoff := fun hlate => hends ⟨lease, hlease, hlate⟩
      simp [hlive]
  | expire cutoff limit =>
    exact updateAll_spares hview (decide_eq_false fun hmem => hspares id hmem view hview hbuilding) _
  | purge olderThan limit =>
    have hkeeps : id ∉ purging olderThan limit db :=
      fun hmem => by cases hbuilding.symm.trans (purging_expired hview hmem)
    simp only [Op.apply, purgeExpired, KeyedTable.get_delete, hkeeps, decide_false]
    exact hview
  | prune retain => exact hview
  | lookupExpire viewId version now =>
    refine updateWhere_spares hview (fun hid => decide_eq_false fun hguard => ?_) _
    subst hid
    exact hspares view hview hguard.1 hbuilding
  | lookupStale viewId version reason now => exact updateWhere_spares hview (fun _ => by simp [hbuilding]) _
  | lookupHit viewId version generation now =>
    exact updateWhere_spares hview (fun _ => by simp [isConfirmed, hbuilding]) _
  | assertions valid => exact hview

/-- The fencing of the builds, while no view is expired that is being built. -/
theorem build_fencing (run : Reaches host SparesBuilds h) :
    (∀ id view, h.db.views.get id = some view → (view.buildNonce ≠ [] ↔ view.status = .building)) ∧
    (∀ op id view, SparesBuilds h.db op → h.db.views.get id = some view → view.status = .building →
      ¬ EndsBuild host h.db id view op →
      (op.apply host h.db).views.get id = some view) ∧
    h.wins.Nodup ∧
    ∀ token publication now,
      ((publishReady host token publication now h.db).2 = .ok true → ∃ owner versionRow,
        Publishes host token publication.dependencies.eraseDups owner versionRow h.db
        (publishReady host token publication now h.db).1) ∧
      ((publishReady host token publication now h.db).2 ≠ .ok true →
        (publishReady host token publication now h.db).1.versions = h.db.versions ∧
          (publishReady host token publication now h.db).1.sources = h.db.sources) := by
  have hf := reaches_fenced run
  refine ⟨hf.building, fun op id view hspares hview hbuilding hends => build_spared hspares hview
    hbuilding hends, hf.nodup, fun token publication now => ?_⟩
  rcases publishReady_effect host token publication now h.db with ⟨hok, hpublishes⟩ | ⟨hno, hsame | hstale⟩
  · exact ⟨fun _ => hpublishes, fun hno => absurd hok hno⟩
  · refine ⟨fun hok => absurd hok hno, fun _ => ?_⟩
    rw [hsame]
    exact ⟨rfl, rfl⟩
  · refine ⟨fun hok => absurd hok hno, fun _ => ?_⟩
    rw [hstale]
    exact ⟨rfl, rfl⟩

end

/-! ## A view that is expired while it is rebuilt -/

/-- A publication for one second, and the next build. -/
def refreshOps : List (Op Text Unit) :=
  [.claim "q".toList ⟨0, 1, 1⟩ ['a'] 0, .publish (teaToken 'a' 0 0 0)
    { teaPublication with ttlSeconds := 1 } 0, .claim "q".toList ⟨0, 1, 1⟩ ['b'] 2]

def housekeeping : Op Text Unit := .expire 3 100

/-- What a row says of its build. -/
def View.build (view : View) : Status × Text × Option Rat := (view.status, view.buildNonce, view.leaseExpiresAt)

theorem build_fencing_refresh : ∃ view, (runOps plainHost teaStart refreshOps).db.views.get
    "q".toList = some view ∧ view.build = (.building, ['b'], some 302) ∧
    ((Op.lookupStale "q".toList 1 [] 3 : Op Text Unit).apply plainHost
    (runOps plainHost teaStart refreshOps).db).views.get "q".toList = some view := by
  have hrun : Reaches plainHost SparesBuilds (runOps plainHost teaStart refreshOps) :=
    reaches_runOps refreshOps (.start teaTable []) ⟨by decide, trivial, by decide, trivial, by decide, trivial, trivial⟩
  have hrow : ((runOps plainHost teaStart refreshOps).db.views.get "q".toList).map View.build =
      some (.building, ['b'], some 302) := by decide +kernel
  obtain ⟨view, hview, hbuild⟩ := Option.map_eq_some_iff.mp hrow
  exact ⟨view, hview, hbuild, (build_fencing hrun).2.1 _ _ view trivial hview (Prod.mk.inj hbuild).1 id⟩

/-- The end of the lifetime of the old version takes the row from the live build and leaves its
nonce there; the build then cannot publish. -/
theorem build_unfenced : ∃ (h : History Text) (view view' : View),
    Reaches plainHost (fun _ _ => True) h ∧ h.db.views.get "q".toList = some view ∧
    view.status = .building ∧ ¬ EndsBuild plainHost h.db "q".toList view housekeeping ∧
    (housekeeping.apply plainHost h.db).views.get "q".toList = some view' ∧
      view'.status ≠ .building ∧ view'.buildNonce ≠ [] ∧
    (publishReady plainHost (teaToken 'b' 1 1 0) teaPublication 3 (housekeeping.apply plainHost h.db)).2 =
      .ok false := by
  have hbefore : ((runOps plainHost teaStart refreshOps).db.views.get "q".toList).map View.build =
      some (.building, ['b'], some 302) := by decide +kernel
  have hafter : ((housekeeping.apply plainHost (runOps plainHost teaStart refreshOps).db).views.get
    "q".toList).map View.build =
      some (.expired, ['b'], some 302) := by decide +kernel
  obtain ⟨view, hview, hbuild⟩ := Option.map_eq_some_iff.mp hbefore
  obtain ⟨view', hview', hbuild'⟩ := Option.map_eq_some_iff.mp hafter
  obtain ⟨hstatus', hrest'⟩ := Prod.mk.inj hbuild'
  refine ⟨_, view, view', reaches_runOps refreshOps (.start teaTable [])
    ⟨by decide, trivial, by decide, trivial, by decide, trivial, trivial⟩, hview,
    (Prod.mk.inj hbuild).1, id, hview', ?_, ?_, ?_⟩
  · rw [hstatus']
    decide
  · rw [(Prod.mk.inj hrest').1]
    decide
  · decide +kernel

end QueryView
