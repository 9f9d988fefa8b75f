import LcmX.QueryViewSteps

/-!
# The deltas of a lookup

The log keeps the events behind a floor. A delta is complete when the version that it starts
from is not below the floor, and pruning minds only the views in three of the five statuses.
-/
namespace QueryView

variable {H M : Type} [DecidableEq H]

/-- Pruning takes no event that a failed or an expired view would still need. -/
def KeepsDeltas (db : Db H) : Op H M → Prop
  | .prune retain => ∀ id view version, db.views.get id = some view → (view.status = .failed ∨ view.status = .expired) →
      db.versions.get (id, view.currentVersion) = some version → safeFloor retain db ≤ version.corpusGeneration
  | _ => True

/-- The log behind its floor. -/
structure Kept (floor : Nat) (h : History H) : Prop where
  log : h.log.map Event.generation = List.range' 1 h.db.corpus.generation
  bound : floor ≤ h.db.corpus.generation
  events : h.db.events = h.log.filter fun e => floor < e.generation
  zero : ∀ id, h.db.versions.get (id, 0) = none
  views : ∀ id view version, h.db.views.get id = some view →
    h.db.versions.get (id, view.currentVersion) = some version →
    floor ≤ version.corpusGeneration

theorem kept_start (messages : KeyedTable Nat Message) (assertions : List Text) :
    Kept 0 (⟨ensureSchema messages assertions, [], [], []⟩ : History H) :=
  ⟨rfl, Nat.le_refl 0, rfl, fun _ => rfl, fun _ _ _ h => nomatch h⟩

section

variable {host : Host H M} {floor : Nat} {h : History H}

theorem Kept.old (hkept : Kept floor h) {e : Event} (he : e ∈ h.log) : e.generation ≤ h.db.corpus.generation := by
  have hmem : e.generation ∈ h.log.map Event.generation := List.mem_map_of_mem he
  rw [hkept.log, List.mem_range'_1] at hmem
  omega

theorem Kept.events_old (hkept : Kept floor h) {e : Event} (he : e ∈ h.db.events) :
    e.generation ≤ h.db.corpus.generation := by
  rw [hkept.events] at he
  exact hkept.old (List.mem_of_mem_filter he)

variable {op : Op H M} {db' db : Db H}

/-- A call that adds no event leaves the log as it is. -/
theorem Kept.log_same (hkept : Kept floor h) (hsub : ∀ e ∈ (op.apply host h.db).events, e ∈ h.db.events) :
    (h.step host op).log = h.log := by
  have hnone : (op.apply host h.db).events.filter (fun e => h.db.corpus.generation < e.generation) = [] := by
    rw [List.filter_eq_nil_iff]
    intro e he
    have hle := hkept.events_old (hsub e he)
    simpa using hle
  rw [History.step, hnone, List.append_nil]

/-- A view with a version had it as its current one before, when no version is published. -/
theorem Kept.views_same (hkept : Kept floor h) (hversions : db'.versions = h.db.versions)
    (hviews : KeepsVersions h.db.views db'.views) : ∀ id view version, db'.views.get id = some view →
      db'.versions.get (id, view.currentVersion) = some version → floor ≤ version.corpusGeneration := by
  intro id view version hview hversion
  rw [hversions] at hversion
  rcases hviews id view hview with hzero | ⟨old, hold, hsame⟩
  · rw [hzero, hkept.zero id] at hversion
    cases hversion
  · rw [hsame] at hversion
    exact hkept.views id old version hold hversion

theorem Kept.mutate (hkept : Kept floor h) {event : Event} (hgeneration : event.generation = h.db.corpus.generation + 1)
    (hcorpus : (op.apply host h.db).corpus.generation = h.db.corpus.generation + 1)
    (hevents : (op.apply host h.db).events = h.db.events ++ [event])
    (hversions : (op.apply host h.db).versions = h.db.versions)
    (hviews : KeepsVersions h.db.views (op.apply host h.db).views) : Kept floor (h.step host op) := by
  have hbound := hkept.bound
  have hnew : (op.apply host h.db).events.filter (fun e => h.db.corpus.generation < e.generation) = [event] := by
    have hnone : h.db.events.filter (fun e => h.db.corpus.generation < e.generation) = [] := by
      rw [List.filter_eq_nil_iff]
      intro e he
      simpa using hkept.events_old he
    rw [hevents, List.filter_append, hnone]
    simp [hgeneration]
  have hlog : (h.step host op).log = h.log ++ [event] := by rw [History.step, hnew]
  refine ⟨?_, ?_, ?_, ?_, hkept.views_same hversions hviews⟩
  · change (h.step host op).log.map Event.generation = List.range' 1 (op.apply host h.db).corpus.generation
    rw [hlog, hcorpus, List.map_append, hkept.log, List.map_singleton, hgeneration,
      List.range'_1_concat, Nat.add_comm 1]
  · change floor ≤ (op.apply host h.db).corpus.generation
    omega
  · change (op.apply host h.db).events = _
    rw [hlog, hevents, hkept.events, List.filter_append]
    have hkeeps : floor < event.generation := by omega
    simp [hkeeps]
  · intro id
    change (op.apply host h.db).versions.get (id, 0) = none
    rw [hversions]
    exact hkept.zero id

/-- A publication keeps the log behind its floor. -/
theorem Kept.publish (hkept : Kept floor h) {token : QueryViewBuildToken H}
    {dependencies : List (Dependency H)} {owner : View}
    {versionRow : Version} (hp : Publishes host token dependencies owner versionRow h.db
    (op.apply host h.db)) : Kept floor (h.step host op) := by
  have hlog : (h.step host op).log = h.log := hkept.log_same fun e he => hp.events ▸ he
  obtain ⟨now, expiresAt, hviews⟩ := hp.views
  have hget : ∀ key, (op.apply host h.db).versions.get key = if key =
      (token.viewId, owner.currentVersion + 1) then some versionRow else h.db.versions.get key := by
    intro key
    rw [hp.versions, KeyedTable.get_insert]
    simp [hp.fresh]
  refine ⟨?_, ?_, ?_, ?_, ?_⟩
  · change (h.step host op).log.map Event.generation = List.range' 1 (op.apply host h.db).corpus.generation
    rw [hlog, hp.corpusSame, hkept.log]
  · change floor ≤ (op.apply host h.db).corpus.generation
    rw [hp.corpusSame]
    exact hkept.bound
  · change (op.apply host h.db).events = _
    rw [hlog, hp.events, hkept.events]
  · intro id
    change (op.apply host h.db).versions.get (id, 0) = none
    rw [hget, if_neg (by simp), hkept.zero id]
  · intro id view version hview hversion
    change (op.apply host h.db).views.get id = some view at hview
    change (op.apply host h.db).versions.get (id, view.currentVersion) = some version at hversion
    rw [hget] at hversion
    split at hversion
    · obtain rfl := Option.some.inj hversion
      rw [hp.corpus]
      exact hkept.bound
    · rename_i hkey
      rw [hviews, KeyedTable.get_updateWhere] at hview
      split at hview
      · rename_i hid
        subst hid
        rw [hp.current, Option.map_some, if_pos (by simpa using hp.owns)] at hview
        obtain rfl := Option.some.inj hview
        exact absurd rfl hkey
      · exact hkept.views id view version hview hversion

/-- A purge keeps the log behind its floor. -/
theorem Kept.purge (hkept : Kept floor h) {ids : List H} (hcorpus : (op.apply host h.db).corpus = h.db.corpus)
    (hevents : (op.apply host h.db).events = h.db.events)
    (hversions : (op.apply host h.db).versions = h.db.versions.delete fun key => key.1 ∈ ids)
    (hviews : (op.apply host h.db).views = h.db.views.delete fun id => id ∈ ids) : Kept floor (h.step host op) := by
  have hlog : (h.step host op).log = h.log := hkept.log_same fun e he => hevents ▸ he
  have hold : ∀ key version, (op.apply host h.db).versions.get key = some version →
      h.db.versions.get key = some version := by
    intro key version hversion
    rw [hversions, KeyedTable.get_delete] at hversion
    split at hversion
    · cases hversion
    · exact hversion
  refine ⟨?_, ?_, ?_, ?_, ?_⟩
  · change (h.step host op).log.map Event.generation = List.range' 1 (op.apply host h.db).corpus.generation
    rw [hlog, hcorpus, hkept.log]
  · change floor ≤ (op.apply host h.db).corpus.generation
    rw [hcorpus]
    exact hkept.bound
  · change (op.apply host h.db).events = _
    rw [hlog, hevents, hkept.events]
  · intro id
    cases hget : (h.step host op).db.versions.get (id, 0) with
    | none => rfl
    | some version => exact absurd (hold _ _ hget) (by rw [hkept.zero id]; simp)
  · intro id view version hview hversion
    change (op.apply host h.db).views.get id = some view at hview
    rw [hviews, KeyedTable.get_delete] at hview
    split at hview
    · cases hview
    · exact hkept.views id view version hview (hold _ _ hversion)

theorem min_getD_le {l : List Nat} {x : Nat} (hx : x ∈ l) (d : Nat) : l.min?.getD d ≤ x := by
  cases hmin : l.min? with
  | none => rw [List.min?_eq_none_iff.mp hmin] at hx; cases hx
  | some m => exact (List.min?_eq_some_iff.mp hmin).2 x hx

/-- Pruning up to a floor that every view can bear. -/
theorem Kept.prune (hkept : Kept floor h) {retain : Nat} (hmeets : KeepsDeltas h.db (.prune retain : Op H M)) :
    Kept (max floor (safeFloor retain h.db)) (h.step host (.prune retain : Op H M)) := by
  have hlog : (h.step host (.prune retain : Op H M)).log = h.log := hkept.log_same fun e he => List.mem_of_mem_filter he
  refine ⟨?_, ?_, ?_, hkept.zero, ?_⟩
  · rw [hlog]
    exact hkept.log
  · refine Nat.max_le.mpr ⟨hkept.bound, ?_⟩
    exact (Nat.min_le_right _ _).trans (Nat.sub_le _ _)
  · change h.db.events.filter (fun e => ¬ e.generation ≤ safeFloor retain h.db) = _
    rw [hlog, hkept.events, List.filter_filter]
    apply List.filter_congr
    intro e _
    simp only [← Bool.decide_and, decide_eq_decide]
    omega
  · intro id view version hview hversion
    refine Nat.max_le.mpr ⟨hkept.views id view version hview hversion, ?_⟩
    by_cases hlost : view.status = .failed ∨ view.status = .expired
    · exact hmeets id view version hview hlost hversion
    · have hactive : view.status = .ready ∨ view.status = .stale ∨ view.status = .building := by
        cases hstatus : view.status <;> simp_all
      have hmem : version.corpusGeneration ∈ activeGenerations h.db := by
        refine List.mem_filterMap.mpr ⟨(id, view), KeyedTable.get_eq_some.mp hview, ?_⟩
        have hversion' : h.db.versions.get (id, view.currentVersion) = some version := hversion
        simp [hactive, hversion']
      exact (Nat.min_le_left _ _).trans (min_getD_le hmem _)

/-- An operation that spares the deltas keeps the log behind some floor. -/
theorem Kept.step (hkept : Kept floor h) (hmeets : KeepsDeltas h.db op) : ∃ floor', Kept floor' (h.step host op) := by
  cases apply_effect host h.db op with
  | quiet messages corpus events versions sources views =>
    have hlog : (h.step host op).log = h.log := hkept.log_same fun e he => events ▸ he
    refine ⟨floor, ?_, ?_, ?_, ?_, hkept.views_same versions views⟩
    · change (h.step host op).log.map Event.generation = List.range' 1 (op.apply host h.db).corpus.generation
      rw [hlog, corpus, hkept.log]
    · change floor ≤ (op.apply host h.db).corpus.generation
      rw [corpus]
      exact hkept.bound
    · change (op.apply host h.db).events = _
      rw [hlog, events, hkept.events]
    · intro id
      change (op.apply host h.db).versions.get (id, 0) = none
      rw [versions]
      exact hkept.zero id
  | mutate event generation corpus events versions sources views =>
    exact ⟨floor, hkept.mutate generation corpus events versions views⟩
  | publish token dependencies owner versionRow publishes => exact ⟨floor, hkept.publish publishes⟩
  | purge ids messages corpus events versions sources views => exact ⟨floor, hkept.purge corpus events versions views⟩
  | prune retain call same =>
    subst call
    exact ⟨_, hkept.prune hmeets⟩

theorem reaches_kept (run : Reaches host KeepsDeltas h) : ∃ floor, Kept floor h := by
  induction run with
  | start messages assertions => exact ⟨0, kept_start messages assertions⟩
  | step op run fresh meets ih =>
    obtain ⟨floor, hkept⟩ := ih
    exact hkept.step meets

/-! ## A lookup on its own -/

/-- The current version of the view of a lookup, as the store had it. -/
def Current (host : Host H M) (args : LookupArgs) (db : Db H) (row : View) (versionRow : Version) : Prop :=
  db.views.get (host.sha256 args.canonical) = some row ∧
    db.versions.get (host.sha256 args.canonical, row.currentVersion) = some versionRow

/-- What a lookup without others between its statements has read. -/
def Grounded (host : Host H M) (args : LookupArgs) (db : Db H) : Phase H → Prop
  | .start | .expire _ | .raised => True
  | .version row => db.views.get (host.sha256 args.canonical) = some row
  | .sources row versionRow => Current host args db row versionRow
  | .validate reading _ | .corpus reading _ | .mark reading _ | .reread reading _ | .delta reading
      _ _ | .confirm reading | .recheck reading _
  | .lateDelta reading _ => Current host args db reading.row reading.versionRow
  | .done result => result.status = .deltaRequired → ∀ view, result.view = some view →
      (∃ row, Current host args db row view.versionRow) ∧
        (result.deltaEvents, result.deltaTruncated) = deltaEvents db view.versionRow.corpusGeneration args.deltaLimit

omit [DecidableEq H] in
theorem deltaEvents_congr (h : db'.events = db.events) (since limit : Nat) :
    deltaEvents db' since limit = deltaEvents db since limit := by
  rw [deltaEvents, deltaEvents, h]

theorem judge_grounded {args : LookupArgs} {reading : Reading H}
    (h : Current host args db reading.row reading.versionRow)
    (generation : Nat) (error : Text) : Grounded host args db (judge host args generation reading error) := by
  rw [judge]
  split_ifs
  · exact h
  · exact fun hstatus => nomatch hstatus
  · exact h
  · exact fun hstatus => nomatch hstatus

/-- A statement of the lookup leaves events and versions alone, and reads what the store had at its start. -/
theorem lookupStep_grounded {args : LookupArgs} {phase : Phase H}
    (hstart : phase = .start → db' = db) (hevents : db'.events = db.events)
    (hversions : db'.versions = db.versions) (h : Grounded host args db phase) :
    (lookupStep host args db' phase).1.events = db.events ∧ (lookupStep host args db' phase).1.versions = db.versions ∧
      Grounded host args db (lookupStep host args db' phase).2 := by
  cases phase with
  | start =>
    obtain rfl := hstart rfl
    rw [lookupStep]
    cases hrow : db'.views.get (host.sha256 args.canonical) with
    | none => exact ⟨rfl, rfl, fun hstatus => by cases hstatus⟩
    | some row =>
      simp only
      split_ifs
      · exact ⟨rfl, rfl, fun hstatus => by cases hstatus⟩
      · exact ⟨rfl, rfl, fun hstatus => by cases hstatus⟩
      · exact ⟨rfl, rfl, fun hstatus => by cases hstatus⟩
      · exact ⟨rfl, rfl, fun hstatus => by cases hstatus⟩
      · exact ⟨rfl, rfl, hrow⟩
  | version row =>
    rw [lookupStep, hversions]
    cases hversion : db.versions.get (host.sha256 args.canonical, row.currentVersion) with
    | none => exact ⟨hevents, hversions, fun hstatus => by cases hstatus⟩
    | some versionRow =>
      refine ⟨hevents, hversions, ?_⟩
      simp only
      split
      · trivial
      · exact ⟨h, hversion⟩
  | expire row => exact ⟨hevents, hversions, fun hstatus => by cases hstatus⟩
  | sources row versionRow => exact ⟨hevents, hversions, h⟩
  | validate reading rest =>
    cases rest with
    | nil => exact ⟨hevents, hversions, judge_grounded h _ _⟩
    | cons dependency rest =>
      rw [lookupStep]
      split
      · exact ⟨hevents, hversions, h⟩
      · exact ⟨hevents, hversions, h⟩
  | corpus reading error => exact ⟨hevents, hversions, judge_grounded h _ _⟩
  | mark reading reason => exact ⟨hevents, hversions, h⟩
  | reread reading reason => exact ⟨hevents, hversions, h⟩
  | delta reading row reason =>
    cases row with
    | none => exact ⟨hevents, hversions, trivial⟩
    | some row =>
      refine ⟨hevents, hversions, fun _ view hview => ?_⟩
      obtain rfl := Option.some.inj hview
      exact ⟨⟨reading.row, h⟩, deltaEvents_congr hevents _ _⟩
  | confirm reading => exact ⟨hevents, hversions, h⟩
  | recheck reading counted =>
    rw [lookupStep]
    split
    · exact ⟨hevents, hversions, h⟩
    · split
      · exact ⟨hevents, hversions, fun hstatus => by cases hstatus⟩
      · exact ⟨hevents, hversions, h⟩
  | lateDelta reading row =>
    refine ⟨hevents, hversions, fun _ view hview => ?_⟩
    obtain ⟨row', -, rfl⟩ := Option.map_eq_some_iff.mp hview
    exact ⟨⟨reading.row, h⟩, deltaEvents_congr hevents _ _⟩
  | done result => exact ⟨hevents, hversions, h⟩
  | raised => exact ⟨hevents, hversions, trivial⟩

/-- The statements of a lookup one after the other. -/
def lookupRun (host : Host H M) (args : LookupArgs) (n : Nat) (db : Db H) : Db H × Phase H :=
  (fun s => lookupStep host args s.1 s.2)^[n] (db, .start)

omit [DecidableEq H] in
theorem judge_ne_start (args : LookupArgs) (generation : Nat) (reading : Reading H) (error : Text) :
    judge host args generation reading error ≠ .start := by
  rw [judge]
  split_ifs <;> exact fun h => nomatch h

/-- A step never goes back to the start. -/
theorem lookupStep_ne_start (args : LookupArgs) (db : Db H) (phase : Phase H) :
    (lookupStep host args db phase).2 ≠ .start := by
  cases phase with
  | start =>
    rw [lookupStep]
    split
    · exact fun h => by cases h
    · split_ifs <;> exact fun h => by cases h
  | version row =>
    rw [lookupStep]
    split
    · exact fun h => by cases h
    · simp only
      split <;> exact fun h => by cases h
  | validate reading rest =>
    cases rest with
    | nil => exact judge_ne_start args _ reading _
    | cons dependency rest =>
      rw [lookupStep]
      split <;> exact fun h => by cases h
  | corpus reading error => exact judge_ne_start args _ reading error
  | delta reading row reason => cases row <;> exact fun h => by cases h
  | recheck reading counted =>
    rw [lookupStep]
    split
    · exact fun h => by cases h
    · split <;> exact fun h => by cases h
  | expire row => exact fun h => by cases h
  | sources row versionRow => exact fun h => by cases h
  | mark reading reason => exact fun h => by cases h
  | reread reading reason => exact fun h => by cases h
  | confirm reading => exact fun h => by cases h
  | lateDelta reading row => exact fun h => by cases h
  | done result => exact fun h => by cases h
  | raised => exact fun h => by cases h

theorem lookupRun_grounded (args : LookupArgs) (db : Db H) (n : Nat) :
    ((lookupRun host args n db).2 = .start → (lookupRun host args n db).1 = db) ∧
    (lookupRun host args n db).1.events = db.events ∧
      (lookupRun host args n db).1.versions = db.versions ∧ Grounded host args db (lookupRun host args n db).2 := by
  induction n with
  | zero => exact ⟨fun _ => rfl, rfl, rfl, trivial⟩
  | succ n ih =>
    obtain ⟨hstart, hevents, hversions, hgrounded⟩ := ih
    rw [lookupRun, Function.iterate_succ_apply', ← lookupRun]
    obtain ⟨hevents', hversions', hgrounded'⟩ := lookupStep_grounded hstart hevents hversions hgrounded
    exact ⟨fun h => absurd h (lookupStep_ne_start args _ _), hevents', hversions', hgrounded'⟩

/-! ## Complete deltas -/

omit [DecidableEq H] in
theorem deltaEvents_complete (hsorted : db.events.Pairwise fun a b => a.generation ≤ b.generation)
    {since limit : Nat} {events : List Event}
    (h : (events, false) = deltaEvents db since limit) : events = db.events.filter fun e => since < e.generation := by
  obtain ⟨hevents, htruncated⟩ := Prod.mk.inj h
  have hsort := (hsorted.filter fun e => since < e.generation).insertionSort_eq
  rw [hsort] at hevents htruncated
  have hshort := of_decide_eq_false htruncated.symm
  rw [List.length_take] at hshort
  have hlen : (db.events.filter fun e => since < e.generation).length ≤ bounded limit := by omega
  rw [hevents, List.take_of_length_le (Nat.le_succ_of_le hlen), List.take_of_length_le hlen]

theorem Kept.sorted (hkept : Kept floor h) : h.db.events.Pairwise fun a b => a.generation ≤ b.generation := by
  have hlog : (h.log.map Event.generation).Pairwise (· ≤ ·) := by
    rw [hkept.log]
    exact List.pairwise_le_range'
  rw [hkept.events]
  exact (List.pairwise_map.mp hlog).filter _

/-- When every pruning spares what failed and expired views need, a delta that is not cut short has
every event after the version that it starts from, one for each generation of the corpus. -/
theorem delta_complete (run : Reaches host KeepsDeltas h) {args : LookupArgs} {n : Nat} {result : Lookup H}
    (hdone : (lookupRun host args n h.db).2.result = some result)
    (hstatus : result.status = .deltaRequired) (hwhole : result.deltaTruncated = false)
    {view : Shaped H} (hview : result.view = some view) :
    result.deltaEvents = (h.log.filter fun e => view.versionRow.corpusGeneration < e.generation) ∧
      h.log.map Event.generation = List.range' 1 h.db.corpus.generation := by
  obtain ⟨floor, hkept⟩ := reaches_kept run
  obtain ⟨-, -, -, hgrounded⟩ := @lookupRun_grounded _ _ _ host args h.db n
  rw [Phase.eq_done hdone] at hgrounded
  obtain ⟨⟨row, hrow, hversion⟩, hdelta⟩ := hgrounded hstatus view hview
  rw [hwhole] at hdelta
  have hfloor := hkept.views _ row _ hrow hversion
  refine ⟨?_, hkept.log⟩
  rw [deltaEvents_complete hkept.sorted hdelta, hkept.events, List.filter_filter]
  apply List.filter_congr
  intro e _
  rw [← Bool.decide_and, decide_eq_decide]
  omega

end

/-! ## A failed build and a pruning -/

def secondMessage : Message := { teaMessage with content := some "coffee".toList }

/-- A message arrives after the publication. -/
def newerOps : List (Op Text Unit) := teaOps ++ [.insert 2 secondMessage 1]

/-- The build fails, the log is pruned to its last event, and the next build is left to run out. -/
def failedOps : List (Op Text Unit) :=
  newerOps ++ [.insert 3 secondMessage 2, .claim "q".toList ⟨2, 3, 3⟩ ['b'] 2,
    .fail (teaToken 'b' 1 1 2) [] 2, .prune 1,
    .claim "q".toList ⟨2, 3, 3⟩ ['c'] 2, .reclaim 303]

/-- What a caller sees of a lookup and its delta. -/
def Lookup.seen (result : Lookup Text) : LookupStatus × Bool × List Nat × Option Nat :=
  (result.status, result.deltaTruncated, result.deltaEvents.map Event.generation,
    result.view.map fun v => v.versionRow.corpusGeneration)

theorem delta_complete_newer : ∃ result view,
    (lookupRun plainHost teaLookup 9 (runOps plainHost teaStart newerOps).db).2.result = some result ∧
    result.view = some view ∧
    result.deltaEvents = ((runOps plainHost teaStart newerOps).log.filter
      fun e => view.versionRow.corpusGeneration < e.generation) ∧
      (runOps plainHost teaStart newerOps).log.map Event.generation = List.range' 1
      (runOps plainHost teaStart newerOps).db.corpus.generation := by
  have hrun : Reaches plainHost KeepsDeltas (runOps plainHost teaStart newerOps) :=
    reaches_runOps newerOps (.start teaTable []) ⟨by decide, trivial, by decide, trivial, by decide, trivial, trivial⟩
  have hseen : (lookupRun plainHost teaLookup 9 (runOps plainHost teaStart newerOps).db).2.result.map Lookup.seen =
      some (.deltaRequired, false, [1], some 0) := by decide +kernel
  obtain ⟨result, hresult, hfacts⟩ := Option.map_eq_some_iff.mp hseen
  obtain ⟨hstatus, hrest⟩ := Prod.mk.inj hfacts
  obtain ⟨hwhole, hrest⟩ := Prod.mk.inj hrest
  obtain ⟨view, hview, -⟩ := Option.map_eq_some_iff.mp (Prod.mk.inj hrest).2
  exact ⟨result, view, hresult, hview, delta_complete hrun hresult hstatus hwhole hview⟩

/-- The delta has the last event only, and does not say that one is missing. -/
theorem delta_incomplete : ∃ h : History Text, Reaches plainHost (fun _ _ => True) h ∧ ∃ result view,
    (lookupRun plainHost teaLookup 9 h.db).2.result = some result ∧ result.status = .deltaRequired ∧
      result.deltaTruncated = false ∧
      result.view = some view ∧ result.deltaEvents ≠
      h.log.filter fun e => view.versionRow.corpusGeneration < e.generation := by
  refine ⟨runOps plainHost teaStart failedOps, reaches_runOps failedOps (.start teaTable [])
    ⟨by decide, trivial, by decide, trivial, by decide, trivial, by decide, trivial, by decide,
      trivial, by decide, trivial, by decide, trivial,
      by decide, trivial, by decide, trivial, trivial⟩, ?_⟩
  have hseen : (lookupRun plainHost teaLookup 9 (runOps plainHost teaStart failedOps).db).2.result.map Lookup.seen =
      some (.deltaRequired, false, [2], some 0) := by decide +kernel
  have hlog : (runOps plainHost teaStart failedOps).log.map Event.generation = [1, 2] := by decide +kernel
  obtain ⟨result, hresult, hfacts⟩ := Option.map_eq_some_iff.mp hseen
  obtain ⟨hstatus, hrest⟩ := Prod.mk.inj hfacts
  obtain ⟨hwhole, hrest⟩ := Prod.mk.inj hrest
  obtain ⟨hevents, hview⟩ := Prod.mk.inj hrest
  obtain ⟨view, hview, hgeneration⟩ := Option.map_eq_some_iff.mp hview
  refine ⟨result, view, hresult, hstatus, hwhole, hview, fun heq => ?_⟩
  rw [heq, hgeneration] at hevents
  have hcount := congrArg List.length hevents
  have hall : (runOps plainHost teaStart failedOps).log.filter (fun e => 0 < e.generation) =
      (runOps plainHost teaStart failedOps).log := by
    rw [List.filter_eq_self]
    intro e he
    have hmem := List.mem_map_of_mem (f := Event.generation) he
    rw [hlog] at hmem
    simp at hmem
    simp
    omega
  rw [hall, hlog] at hcount
  cases hcount

end QueryView
