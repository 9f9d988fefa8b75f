import LcmX.QueryViewSteps

/-!
# Versions and the corpus

A version stands for the corpus at its watermark: as long as the corpus is at that
generation, each source of the version describes its row.
-/
namespace QueryView

variable {H M : Type} [DecidableEq H]

structure Sound (host : Host H M) (db : Db H) : Prop where
  past : ∀ key versionRow, db.versions.get key = some versionRow → versionRow.corpusGeneration ≤ db.corpus.generation
  owned : ∀ id v d, (id, v, d) ∈ db.sources → (db.versions.get (id, v)).isSome
  holds : ∀ id v d versionRow, (id, v, d) ∈ db.sources → db.versions.get (id, v) = some versionRow →
    versionRow.corpusGeneration = db.corpus.generation → Holds host db d

theorem sound_start (host : Host H M) (messages : KeyedTable Nat Message) (assertions : List Text) :
    Sound host (ensureSchema messages assertions : Db H) :=
  ⟨fun _ _ h => (nomatch h), fun _ _ _ h => (nomatch h), fun _ _ _ _ h => (nomatch h)⟩

section

variable {host : Host H M} {db db' : Db H}

theorem Holds.congr {d : Dependency H} (h : Holds host db d)
    (hmessages : db'.messages = db.messages) : Holds host db' d := by
  obtain ⟨row, hrow, hmatches⟩ := h
  exact ⟨row, hmessages ▸ hrow, hmatches⟩

variable {token : QueryViewBuildToken H} {dependencies : List (Dependency H)} {owner : View}
  {versionRow : Version}

theorem Publishes.get_version
    (hp : Publishes host token dependencies owner versionRow db db') (key : H × Nat) :
    db'.versions.get key = if key = (token.viewId, owner.currentVersion + 1) then some versionRow
      else db.versions.get key := by
  rw [hp.versions, KeyedTable.get_insert]
  simp [hp.fresh]

theorem Publishes.get_view
    (hp : Publishes host token dependencies owner versionRow db db') :
    ∃ view, db'.views.get token.viewId = some view ∧ view.status = .ready ∧
      view.currentVersion = owner.currentVersion + 1 := by
  obtain ⟨now, expiresAt, hviews⟩ := hp.views
  refine ⟨View.toReady (owner.currentVersion + 1) now expiresAt owner, ?_, rfl, rfl⟩
  rw [hviews, KeyedTable.get_updateWhere, if_pos rfl, hp.current, Option.map_some, if_pos (by simpa using hp.owns)]

/-- A publication keeps the cache sound. -/
theorem Sound.publish
    (hs : Sound host db) (hp : Publishes host token dependencies owner versionRow db db') : Sound host db' := by
  have hsource : ∀ id v d, (id, v, d) ∈ db'.sources →
      (id, v, d) ∈ db.sources ∧ (id, v) ≠ (token.viewId, owner.currentVersion + 1) ∨
        (id, v) = (token.viewId, owner.currentVersion + 1) ∧ d ∈ dependencies := by
    intro id v d hmem
    rw [hp.sources, List.mem_append] at hmem
    rcases hmem with hold | hnew
    · left
      refine ⟨hold, fun hkey => ?_⟩
      have hsome := hs.owned id v d hold
      rw [hkey, hp.fresh] at hsome
      cases hsome
    · right
      obtain ⟨d', hd', he⟩ := List.mem_map.mp hnew
      obtain ⟨rfl, rfl, rfl⟩ : token.viewId = id ∧ owner.currentVersion + 1 = v ∧ d' = d := by simpa using he
      exact ⟨rfl, hd'⟩
  refine ⟨fun key row hrow => ?_, fun id v d hmem => ?_, fun id v d row hmem hrow hwatermark => ?_⟩
  · rw [hp.get_version] at hrow
    rw [hp.corpusSame]
    split at hrow
    · obtain rfl := Option.some.inj hrow
      exact hp.corpus.le
    · exact hs.past key row hrow
  · rw [hp.get_version]
    split
    · rfl
    · rename_i hkey
      rcases hsource id v d hmem with ⟨hold, -⟩ | ⟨hnew, -⟩
      · exact hs.owned id v d hold
      · exact absurd hnew hkey
  · rw [hp.get_version] at hrow
    rw [hp.corpusSame] at hwatermark
    rcases hsource id v d hmem with ⟨hold, hkey⟩ | ⟨-, hd⟩
    · rw [if_neg hkey] at hrow
      exact (hs.holds id v d row hold hrow hwatermark).congr hp.messages
    · exact (hp.holds d hd).congr hp.messages

theorem Sound.purge {ids : List H} (hs : Sound host db) (hmessages : db'.messages = db.messages)
    (hcorpus : db'.corpus = db.corpus)
    (hversions : db'.versions = db.versions.delete fun key => key.1 ∈ ids)
    (hsources : db'.sources = db.sources.filter fun s => s.1 ∉ ids) :
    Sound host db' := by
  have hold : ∀ key versionRow, db'.versions.get key = some versionRow → db.versions.get key = some versionRow := by
    intro key versionRow hrow
    rw [hversions, KeyedTable.get_delete] at hrow
    split at hrow
    · cases hrow
    · exact hrow
  have hsource : ∀ id v d, (id, v, d) ∈ db'.sources → (id, v, d) ∈ db.sources ∧ id ∉ ids := by
    intro id v d hmem
    rw [hsources, List.mem_filter] at hmem
    exact ⟨hmem.1, by simpa using hmem.2⟩
  refine ⟨fun key row hrow => ?_, fun id v d hmem => ?_, fun id v d row hmem hrow hwatermark => ?_⟩
  · rw [hcorpus]
    exact hs.past key row (hold key row hrow)
  · obtain ⟨hmem, hid⟩ := hsource id v d hmem
    rw [hversions, KeyedTable.get_delete, if_neg (by simpa using hid)]
    exact hs.owned id v d hmem
  · rw [hcorpus] at hwatermark
    exact (hs.holds id v d row (hsource id v d hmem).1 (hold _ row hrow) hwatermark).congr hmessages

/-- Every operation keeps the cache sound. -/
theorem Sound.step (hs : Sound host db) (op : Op H M) : Sound host (op.apply host db) := by
  cases apply_effect host db op with
  | quiet messages corpus events versions sources views =>
    refine ⟨fun key row hrow => ?_, fun id v d hmem => ?_, fun id v d row hmem hrow hwatermark => ?_⟩
    · rw [corpus]
      exact hs.past key row (versions ▸ hrow)
    · rw [versions]
      exact hs.owned id v d (sources ▸ hmem)
    · rw [corpus] at hwatermark
      exact (hs.holds id v d row (sources ▸ hmem) (versions ▸ hrow) hwatermark).congr messages
  | mutate event generation corpus events versions sources views =>
    have hpast : ∀ key versionRow, (op.apply host db).versions.get key = some versionRow →
        versionRow.corpusGeneration ≤ db.corpus.generation :=
      fun key row hrow => hs.past key row (versions ▸ hrow)
    refine ⟨fun key row hrow => ?_, fun id v d hmem => ?_, fun id v d row hmem hrow hwatermark => ?_⟩
    · have hle := hpast key row hrow
      omega
    · rw [versions]
      exact hs.owned id v d (sources ▸ hmem)
    · have hle := hpast _ row hrow
      omega
  | publish token dependencies owner versionRow publishes => exact hs.publish publishes
  | purge ids messages corpus events versions sources views => exact hs.purge messages corpus versions sources
  | prune retain call same =>
    rw [same]
    exact ⟨hs.past, hs.owned, hs.holds⟩

theorem reaches_sound {ok : Db H → Op H M → Prop} {h : History H} (run : Reaches host ok h) : Sound host h.db := by
  induction run with
  | start messages assertions => exact sound_start host messages assertions
  | step op run fresh meets ih => exact ih.step op

/-- The generation of the corpus tells its messages. -/
theorem apply_generation (host : Host H M) (db : Db H) (op : Op H M) :
    (op.apply host db).corpus.generation = db.corpus.generation ∧ (op.apply host db).messages = db.messages ∨
      (op.apply host db).corpus.generation = db.corpus.generation + 1 := by
  cases apply_effect host db op with
  | quiet messages corpus events versions sources views => exact .inl ⟨by rw [corpus], messages⟩
  | mutate event generation corpus events versions sources views => exact .inr corpus
  | publish token dependencies owner versionRow publishes =>
    exact .inl ⟨by rw [publishes.corpusSame], publishes.messages⟩
  | purge ids messages corpus events versions sources views => exact .inl ⟨by rw [corpus], messages⟩
  | prune retain call same =>
    rw [same]
    exact .inl ⟨rfl, rfl⟩

/-- A version row is there before a call, or the call publishes it as the current one. -/
theorem version_origin {op : Op H M} {id : H} {v : Nat}
    (hrow : (op.apply host db).versions.get (id, v) = some versionRow) :
    db.versions.get (id, v) = some versionRow ∨
      ∃ view, (op.apply host db).views.get id = some view ∧ view.status = .ready ∧ view.currentVersion = v := by
  cases apply_effect host db op with
  | quiet messages corpus events versions sources views => exact .inl (versions ▸ hrow)
  | mutate event generation corpus events versions sources views => exact .inl (versions ▸ hrow)
  | publish token dependencies owner published publishes =>
    rw [publishes.get_version] at hrow
    split at hrow
    · rename_i hkey
      obtain ⟨rfl, rfl⟩ := Prod.mk.inj hkey
      exact .inr publishes.get_view
    · exact .inl hrow
  | purge ids messages corpus events versions sources views =>
    left
    rw [versions, KeyedTable.get_delete] at hrow
    split at hrow
    · cases hrow
    · exact hrow
  | prune retain call same =>
    rw [same] at hrow
    exact .inl hrow

end

end QueryView
