import LcmX.QueryViewLookup

/-!
# What a call can do to the tables

Every call either only touches the views, or adds one event, one version, or takes away
views or old events. The invariants of the runs are read off this.
-/
namespace QueryView

variable {H M : Type} [DecidableEq H]

/-- The current version of a view changes only with a publication. -/
def KeepsVersions (views views' : KeyedTable H View) : Prop :=
  ∀ id view', views'.get id = some view' → view'.currentVersion = 0 ∨ ∃ view,
    views.get id = some view ∧ view'.currentVersion = view.currentVersion

/-- A dependency describes its row of the messages. -/
def Holds (host : Host H M) (db : Db H) (dependency : Dependency H) : Prop :=
  ∃ row, db.messages.get dependency.sourceStoreId = some row ∧ matchesRow host dependency row = true

/-- A publication under a token that owns its view. -/
structure Publishes (host : Host H M) (token : QueryViewBuildToken H)
    (dependencies : List (Dependency H)) (owner : View) (versionRow : Version)
    (db db' : Db H) : Prop where
  current : db.views.get token.viewId = some owner
  owns : Owns token owner
  corpus : versionRow.corpusGeneration = db.corpus.generation
  fresh : db.versions.get (token.viewId, owner.currentVersion + 1) = none
  holds : ∀ d ∈ dependencies, Holds host db d
  messages : db'.messages = db.messages
  corpusSame : db'.corpus = db.corpus
  events : db'.events = db.events
  versions : db'.versions = db.versions.insert (token.viewId, owner.currentVersion + 1) versionRow
  sources : db'.sources = db.sources ++ dependencies.map fun d => (token.viewId, owner.currentVersion + 1, d)
  views : ∃ now expiresAt, db'.views = db.views.updateWhere token.viewId (fun view => Owns token view)
    (View.toReady (owner.currentVersion + 1) now expiresAt)

inductive Effect (host : Host H M) (op : Op H M) (db db' : Db H) : Prop
  | quiet (messages : db'.messages = db.messages) (corpus : db'.corpus = db.corpus) (events : db'.events = db.events)
      (versions : db'.versions = db.versions) (sources : db'.sources = db.sources)
        (views : KeepsVersions db.views db'.views)
  | mutate (event : Event) (generation : event.generation = db.corpus.generation + 1)
      (corpus : db'.corpus.generation = db.corpus.generation + 1) (events : db'.events = db.events ++ [event])
      (versions : db'.versions = db.versions) (sources : db'.sources = db.sources)
        (views : KeepsVersions db.views db'.views)
  | publish (token : QueryViewBuildToken H) (dependencies : List (Dependency H)) (owner : View) (versionRow : Version)
      (publishes : Publishes host token dependencies owner versionRow db db')
  | purge (ids : List H) (messages : db'.messages = db.messages) (corpus : db'.corpus = db.corpus)
      (events : db'.events = db.events)
      (versions : db'.versions = db.versions.delete fun key => key.1 ∈ ids)
        (sources : db'.sources = db.sources.filter fun s => s.1 ∉ ids)
      (views : db'.views = db.views.delete fun id => id ∈ ids)
  | prune (retain : Nat) (call : op = .prune retain) (same : db' = pruneCorpusEvents retain db)

/-! ## Views -/

theorem keepsVersions_refl (views : KeyedTable H View) : KeepsVersions views views :=
  fun _ view' h => .inr ⟨view', h, rfl⟩

theorem keepsVersions_updateAll (views : KeyedTable H View) (guard : H → View → Bool) {f : View → View}
    (hf : ∀ view, (f view).currentVersion = view.currentVersion) : KeepsVersions views (views.updateAll guard f) := by
  intro id view' hview
  rw [KeyedTable.get_updateAll, Option.map_eq_some_iff] at hview
  obtain ⟨view, hget, rfl⟩ := hview
  refine .inr ⟨view, hget, ?_⟩
  split
  · exact hf view
  · rfl

theorem keepsVersions_updateWhere (views : KeyedTable H View) (k : H) (guard : View → Bool) {f : View → View}
    (hf : ∀ view, (f view).currentVersion = view.currentVersion) :
      KeepsVersions views (views.updateWhere k guard f) := by
  intro id view' hview
  rw [KeyedTable.get_updateWhere] at hview
  split at hview
  · rename_i hid
    subst hid
    obtain ⟨view, hget, rfl⟩ := Option.map_eq_some_iff.mp hview
    refine .inr ⟨view, hget, ?_⟩
    split
    · exact hf view
    · rfl
  · exact .inr ⟨view', hview, rfl⟩

/-! ## Messages -/

theorem eventOf_generation {generation storeId : Nat} {mutation : Mutation} {message : Message}
    {now : Rat} {event : Event}
    (h : eventOf generation storeId mutation message now = some event) : event.generation = generation := by
  rw [eventOf] at h
  split at h
  · split at h
    · rw [← Option.some.inj h]
    · cases h
  · cases h

theorem staleDependents_keeps (db : Db H) (storeId : Nat) (reason : Text) (now : Rat) :
    KeepsVersions db.views (staleDependents db storeId reason now) := keepsVersions_updateAll db.views _ fun _ => rfl

theorem effect_refl (host : Host H M) (op : Op H M) (db : Db H) : Effect host op db db :=
  .quiet rfl rfl rfl rfl rfl (keepsVersions_refl db.views)

theorem insertMessage_effect (host : Host H M) (op : Op H M) (storeId : Nat) (message : Message)
    (now : Rat) (db : Db H) :
    Effect host op db (insertMessage storeId message now db) := by
  rw [insertMessage]
  split
  · rename_i hevent
    exact .mutate _ (eventOf_generation hevent) rfl rfl rfl rfl (keepsVersions_refl db.views)
  · exact effect_refl host _ db

theorem updateMessage_effect (host : Host H M) (op : Op H M) (storeId : Nat) (message : Message)
    (now : Rat) (db : Db H) :
    Effect host op db (updateMessage storeId message now db) := by
  rw [updateMessage]
  split
  · rename_i hevent
    exact .mutate _ (eventOf_generation hevent) rfl rfl rfl rfl (staleDependents_keeps db _ _ _)
  · exact effect_refl host _ db

theorem deleteMessage_effect (host : Host H M) (op : Op H M) (storeId : Nat) (now : Rat)
    (db : Db H) : Effect host op db (deleteMessage storeId now db) := by
  rw [deleteMessage]
  split
  · exact effect_refl host _ db
  · split
    · exact effect_refl host _ db
    · rename_i hevent
      exact .mutate _ (eventOf_generation hevent) rfl rfl rfl rfl (staleDependents_keeps db _ _ _)

/-! ## Builds -/

theorem claimRow_version (canonical nonce : Text) (now : Rat) (old : Option View) :
    (claimRow canonical nonce now old).currentVersion = (old.map View.currentVersion).getD 0 := by
  cases old with
  | none => rfl
  | some view =>
    simp only [claimRow]
    split <;> rfl

theorem get_claimed (views : KeyedTable H View) (viewId : H) (row : View) (id : H) :
    ((views.insert viewId row).modify viewId fun _ => row).get id = if id = viewId then some row else views.get id := by
  rw [KeyedTable.get_modify]
  split
  · rw [KeyedTable.get_insert]
    split
    · rfl
    · rename_i hold
      obtain ⟨view, hview⟩ := Option.ne_none_iff_exists'.mp fun hnone => hold ⟨rfl, hnone⟩
      rw [hview]
      rfl
  · rename_i hid
    rw [KeyedTable.get_insert, if_neg fun h => hid h.1]

theorem claimBuild_effect (host : Host H M) (op : Op H M) (canonical : Text)
    (snapshot : CorpusSnapshot) (nonce : Text) (now : Rat) (db : Db H) :
    Effect host op db (claimBuild host canonical snapshot nonce now db).1 := by
  simp only [claimBuild]
  split
  · exact effect_refl host _ db
  · split
    · exact effect_refl host _ db
    · refine .quiet rfl rfl rfl rfl rfl fun id view' hview => ?_
      rw [get_claimed] at hview
      split at hview
      · rename_i hid
        subst hid
        obtain rfl := Option.some.inj hview
        rw [claimRow_version]
        cases hold : db.views.get (host.sha256 canonical) with
        | none => exact .inl rfl
        | some view => exact .inr ⟨view, rfl, rfl⟩
      · exact .inr ⟨view', hview, rfl⟩

/-- A dependency that passes describes its row. -/
theorem validate_ok {host : Host H M} {db : Db H} {dependency : Dependency H}
    (h : validateDependencyCurrent host db dependency = .ok ()) :
    Holds host db dependency := by
  rw [validateDependencyCurrent] at h
  split at h
  · cases h
  · rename_i row hrow
    split_ifs at h with hhash hspan hmeta
    exact ⟨row, hrow, by simpa using hmeta⟩

theorem forM_ok {α ε : Type} {f : α → Except ε Unit} : ∀ {l : List α}, l.forM f = .ok () → ∀ a ∈ l, f a = .ok () := by
  intro l
  induction l with
  | nil => simp
  | cons a l ih =>
    intro h
    rw [List.forM_eq_forM, List.forM_cons] at h
    cases ha : f a with
    | error e =>
      rw [ha] at h
      cases h
    | ok u =>
      rw [ha] at h
      intro x hx
      rcases List.mem_cons.mp hx with rfl | hx
      · exact ha
      · exact ih h x hx

/-- A publication publishes, or at most marks the view stale. -/
theorem publishTransaction_effect (host : Host H M) (token : QueryViewBuildToken H)
    (dependencies : List (Dependency H)) (payload : Text × Text)
    (completeness : Completeness) (policy : Text) (ttl : Nat) (now : Rat) (db : Db H) :
    ((publishTransaction host token dependencies payload completeness policy ttl now db).2 = .ok true ∧
      ∃ owner versionRow, Publishes host token dependencies owner versionRow db
        (publishTransaction host token dependencies payload completeness policy ttl now db).1) ∨
    ((publishTransaction host token dependencies payload completeness policy ttl now db).2 ≠ .ok true ∧
      ((publishTransaction host token dependencies payload completeness policy ttl now db).1 = db ∨
        (publishTransaction host token dependencies payload completeness policy ttl now db).1 =
          { db with
            views := db.views.updateWhere token.viewId (fun view => Owns token view)
              (View.toStale "corpus_changed_during_build".toList now) })) := by
  rw [publishTransaction]
  cases howner : db.views.get token.viewId with
  | none => exact .inr ⟨by simp, .inl rfl⟩
  | some owner =>
    simp only
    split
    · exact .inr ⟨by simp, .inl rfl⟩
    · rename_i howns
      split
      · exact .inr ⟨by simp, .inr rfl⟩
      · cases hvalid : dependencies.forM (validateDependencyCurrent host db) with
        | error message => exact .inr ⟨by simp, .inl rfl⟩
        | ok u =>
          simp only
          split
          · exact .inr ⟨by simp, .inl rfl⟩
          · split
            · exact .inr ⟨by simp, .inl rfl⟩
            · rename_i hconstraint
              have hfresh : db.versions.get (token.viewId, owner.currentVersion + 1) = none := by
                cases hget : db.versions.get (token.viewId, owner.currentVersion + 1) with
                | none => rfl
                | some v => exact absurd (.inl (by rw [hget]; rfl)) hconstraint
              refine .inl ⟨rfl, owner, _, ⟨howner, of_not_not howns, ?_, hfresh,
                fun d hd => validate_ok (forM_ok hvalid d hd), rfl, rfl, rfl, rfl, rfl,
                ⟨_, _, rfl⟩⟩⟩
              rfl

theorem publishReady_effect (host : Host H M) (token : QueryViewBuildToken H)
    (publication : Publication H M) (now : Rat) (db : Db H) :
    ((publishReady host token publication now db).2 = .ok true ∧
      ∃ owner versionRow, Publishes host token publication.dependencies.eraseDups owner versionRow db
      (publishReady host token publication now db).1) ∨
    ((publishReady host token publication now db).2 ≠ .ok true ∧
      ((publishReady host token publication now db).1 = db ∨ (publishReady host token publication now db).1 =
        { db with
          views := db.views.updateWhere token.viewId (fun view => Owns token view)
            (View.toStale "corpus_changed_during_build".toList now) })) := by
  simp only [publishReady]
  split
  · exact .inr ⟨by simp, .inl rfl⟩
  · split
    · exact .inr ⟨by simp, .inl rfl⟩
    · split
      · exact .inr ⟨by simp, .inl rfl⟩
      · split
        · exact .inr ⟨by simp, .inl rfl⟩
        · exact publishTransaction_effect host token _ _ _ _ _ now db

theorem apply_effect (host : Host H M) (db : Db H) (op : Op H M) : Effect host op db (op.apply host db) := by
  cases op with
  | insert storeId message now => exact insertMessage_effect host _ storeId message now db
  | update storeId message now => exact updateMessage_effect host _ storeId message now db
  | delete storeId now => exact deleteMessage_effect host _ storeId now db
  | claim canonical snapshot nonce now => exact claimBuild_effect host _ canonical snapshot nonce now db
  | publish token publication now =>
    rcases publishReady_effect host token publication now db with ⟨-, owner, versionRow, h⟩ | ⟨-, h | h⟩
    · exact .publish token _ owner versionRow h
    · change Effect host _ db (publishReady host token publication now db).1
      rw [h]
      exact effect_refl host _ db
    · change Effect host _ db (publishReady host token publication now db).1
      rw [h]
      exact .quiet rfl rfl rfl rfl rfl (keepsVersions_updateWhere db.views _ _ fun _ => rfl)
  | fail token error now => exact .quiet rfl rfl rfl rfl rfl (keepsVersions_updateWhere db.views _ _ fun _ => rfl)
  | reclaim cutoff => exact .quiet rfl rfl rfl rfl rfl (keepsVersions_updateAll db.views _ fun _ => rfl)
  | expire cutoff limit => exact .quiet rfl rfl rfl rfl rfl (keepsVersions_updateAll db.views _ fun _ => rfl)
  | purge olderThan limit => exact .purge (purging olderThan limit db) rfl rfl rfl rfl rfl rfl
  | prune retain => exact .prune retain rfl rfl
  | lookupExpire viewId version now =>
    exact .quiet rfl rfl rfl rfl rfl (keepsVersions_updateWhere db.views _ _ fun _ => rfl)
  | lookupStale viewId version reason now =>
    exact .quiet rfl rfl rfl rfl rfl (keepsVersions_updateWhere db.views _ _ fun _ => rfl)
  | lookupHit viewId version generation now =>
    exact .quiet rfl rfl rfl rfl rfl (keepsVersions_updateWhere db.views _ _ fun _ => rfl)
  | assertions valid => exact .quiet rfl rfl rfl rfl rfl fun id view' h => .inr ⟨view', h, rfl⟩

end QueryView
