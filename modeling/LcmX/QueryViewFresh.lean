import LcmX.QueryViewSound

/-!
# Hits

A lookup among the calls of other connections. The version row that it reads was current at
its first statement or was published since; the corpus has not moved from that moment to
the reading of its state, so one moment has all that a hit promises.
-/
namespace QueryView

variable {H M : Type} [DecidableEq H]

/-- A lookup between two statements: the stores since it began, the last one first, and by how much its own writes
have raised the hit counter of its view. -/
structure Call (H : Type) where
  seen : List (Db H)
  db : Db H
  phase : Phase H
  gained : Nat

/-- The hit counter of the view of a lookup. -/
def hits (host : Host H M) (args : LookupArgs) (db : Db H) : Nat :=
  ((db.views.get (host.sha256 args.canonical)).map View.hitCount).getD 0

def Call.other (host : Host H M) (c : Call H) (op : Op H M) : Call H :=
  { c with seen := op.apply host c.db :: c.seen, db := op.apply host c.db }

def Call.own (host : Host H M) (args : LookupArgs) (c : Call H) : Call H where
  seen := (lookupStep host args c.db c.phase).1 :: c.seen
  db := (lookupStep host args c.db c.phase).1
  phase := (lookupStep host args c.db c.phase).2
  gained := c.gained + (hits host args (lookupStep host args c.db c.phase).1 - hits host args c.db)

/-- Lookups from a state of a run, whose own statements all meet a condition. -/
inductive Calls (host : Host H M) (args : LookupArgs) (ok : Phase H → Db H → Prop) : Call H → Prop
  | start {h : History H} (run : Reaches host (fun _ _ => True) h) : Calls host args ok ⟨[h.db], h.db, .start, 0⟩
  | other {c : Call H} (op : Op H M) (run : Calls host args ok c) : Calls host args ok (c.other host op)
  | own {c : Call H} (run : Calls host args ok c) (meets : ok c.phase c.db) : Calls host args ok (c.own host args)

/-- The row that is read after a confirmation that counted is still the confirmed one. -/
def StillConfirmed (host : Host H M) (args : LookupArgs) : Phase H → Db H → Prop
  | .recheck reading true, db =>
    db.views.matches? (host.sha256 args.canonical) (isConfirmed reading.row.currentVersion reading.row.generation) = true
  | _, _ => True

instance (host : Host H M) (args : LookupArgs) (phase : Phase H) (db : Db H) :
    Decidable (StillConfirmed host args phase db) := by
  unfold StillConfirmed
  split <;> infer_instance

/-- A store at which the result of a lookup is fresh. -/
structure Fresh (host : Host H M) (args : LookupArgs) (shaped : Shaped H) (db : Db H) : Prop where
  asked : shaped.viewId = host.sha256 args.canonical
  current : ∃ view, db.views.get shaped.viewId = some view ∧ view.status = .ready ∧ view.currentVersion = shaped.version
  version : db.versions.get (shaped.viewId, shaped.version) = some shaped.versionRow
  watermark : db.corpus.generation = shaped.versionRow.corpusGeneration
  sources : ∀ d, (shaped.viewId, shaped.version, d) ∈ db.sources → Holds host db d
  dependencies : ∀ d ∈ shaped.dependencies, Holds host db d

/-! ## The stores of a call -/

/-- The corpus only moves on, and its generation tells its messages. -/
structure Timeline (host : Host H M) (c : Call H) : Prop where
  here : c.db ∈ c.seen
  sound : ∀ m ∈ c.seen, Sound host m
  before : ∀ m ∈ c.seen, m.corpus.generation ≤ c.db.corpus.generation
  same : ∀ m ∈ c.seen, ∀ m' ∈ c.seen, m.corpus.generation = m'.corpus.generation → m.messages = m'.messages

section

variable {host : Host H M} {args : LookupArgs} {c : Call H}

/-- One more store keeps the timeline. -/
theorem Timeline.next (ht : Timeline host c) {db' : Db H} (hsound : Sound host db')
    (hmoves : db'.corpus.generation = c.db.corpus.generation ∧ db'.messages = c.db.messages ∨
      db'.corpus.generation = c.db.corpus.generation + 1)
    (phase : Phase H) (gained : Nat) : Timeline host ⟨db' :: c.seen, db', phase, gained⟩ := by
  have hbefore : ∀ m ∈ c.seen, m.corpus.generation ≤ db'.corpus.generation := by
    intro m hm
    have hle := ht.before m hm
    omega
  -- an older store at the generation of the new one has its messages
  have hsame : ∀ m ∈ c.seen, m.corpus.generation = db'.corpus.generation → m.messages = db'.messages := by
    intro m hm he
    rcases hmoves with ⟨hgeneration, hmessages⟩ | hgeneration
    · rw [hmessages]
      exact ht.same m hm c.db ht.here (he.trans hgeneration)
    · have hle := ht.before m hm
      omega
  refine ⟨List.mem_cons_self, fun m hm => ?_, fun m hm => ?_, fun m hm m' hm' he => ?_⟩
  · rcases List.mem_cons.mp hm with rfl | hm
    · exact hsound
    · exact ht.sound m hm
  · rcases List.mem_cons.mp hm with rfl | hm
    · exact Nat.le_refl _
    · exact hbefore m hm
  · rcases List.mem_cons.mp hm with rfl | hold
    · rcases List.mem_cons.mp hm' with rfl | hold'
      · rfl
      · exact (hsame m' hold' he.symm).symm
    · rcases List.mem_cons.mp hm' with rfl | hold'
      · exact hsame m hold he
      · exact ht.same m hold m' hold' he

theorem Timeline.other (ht : Timeline host c) (op : Op H M) : Timeline host (c.other host op) :=
  ht.next ((ht.sound c.db ht.here).step op) (apply_generation host c.db op) c.phase c.gained

/-- A statement that only reads writes the assertions that are there. -/
theorem lookupStep_op (host : Host H M) (args : LookupArgs) (db : Db H) (phase : Phase H) :
    ∃ op : Op H M, (lookupStep host args db phase).1 = op.apply host db := by
  rcases lookupStep_db host args db phase with hsame | hop
  · exact ⟨.assertions db.assertions, hsame⟩
  · exact hop

theorem Timeline.own (ht : Timeline host c) : Timeline host (c.own host args) := by
  obtain ⟨op, hop⟩ := lookupStep_op host args c.db c.phase
  refine ht.next ?_ ?_ _ _
  · rw [hop]
    exact (ht.sound c.db ht.here).step op
  · rw [hop]
    exact apply_generation host c.db op

/-! ## What a lookup has read -/

/-- A version row was the current one of the view at some store of the call. -/
def Located (host : Host H M) (args : LookupArgs) (seen : List (Db H)) (row : View) (versionRow : Version) : Prop :=
  ∃ m ∈ seen, m.versions.get (host.sha256 args.canonical, row.currentVersion) = some versionRow ∧
    ∃ view, m.views.get (host.sha256 args.canonical) = some view ∧
      view.currentVersion = row.currentVersion ∧ (row.status = .ready → view.status = .ready)

/-- A row that a lookup goes on with. -/
def Usable (row : View) : Prop := row.status ≠ .building ∧ row.status ≠ .failed

/-- A version row that the corpus has reached. -/
structure Read (host : Host H M) (args : LookupArgs) (seen : List (Db H)) (db : Db H) (row : View)
    (versionRow : Version) : Prop where
  usable : Usable row
  located : Located host args seen row versionRow
  reached : versionRow.corpusGeneration ≤ db.corpus.generation

def FreshSeen (host : Host H M) (args : LookupArgs) (seen : List (Db H)) (shaped : Shaped H) :
    Prop := ∃ m ∈ seen, Fresh host args shaped m

/-- The reading of a lookup, as a result with any row. -/
def FreshReading (host : Host H M) (args : LookupArgs) (seen : List (Db H)) (reading : Reading H) : Prop :=
  ∀ row, FreshSeen host args seen (shape host args reading row)

/-- What holds of the phase of a lookup, at a store and with the stores before it. -/
def Watched (host : Host H M) (args : LookupArgs) (seen : List (Db H)) (db : Db H) : Phase H → Prop
  | .version row => Usable row ∧
      ∀ versionRow, db.versions.get (host.sha256 args.canonical, row.currentVersion) =
        some versionRow → Located host args seen row versionRow
  | .sources row versionRow => Read host args seen db row versionRow
  | .validate reading rest => Read host args seen db reading.row reading.versionRow ∧
      ∀ d ∈ reading.dependencies, d ∈ rest ∨ ∃ m ∈ seen,
        reading.versionRow.corpusGeneration ≤ m.corpus.generation ∧ Holds host m d
  | .corpus _ error => error ≠ []
  | .confirm reading | .recheck reading _ => FreshReading host args seen reading
  | .done result => result.status = .hit → ∃ shaped, result.view = some shaped ∧ FreshSeen host args seen shaped
  | .start | .expire _ | .mark _ _ | .reread _ _ | .delta _ _ _ | .lateDelta _ _ | .raised => True

variable {seen seen' : List (Db H)} {db : Db H}

theorem Located.mono {row : View} {versionRow : Version} (h : Located host args seen row versionRow)
    (hsub : seen ⊆ seen') : Located host args seen' row versionRow := by
  obtain ⟨m, hm, hfacts⟩ := h
  exact ⟨m, hsub hm, hfacts⟩

theorem FreshSeen.mono {shaped : Shaped H} (h : FreshSeen host args seen shaped) (hsub : seen ⊆ seen') :
    FreshSeen host args seen' shaped := by
  obtain ⟨m, hm, hfresh⟩ := h
  exact ⟨m, hsub hm, hfresh⟩

theorem Read.mono {db' : Db H} {row : View} {versionRow : Version} (h : Read host args seen db row versionRow)
    (hsub : seen ⊆ seen') (hle : db.corpus.generation ≤ db'.corpus.generation) :
      Read host args seen' db' row versionRow :=
  ⟨h.usable, h.located.mono hsub, h.reached.trans hle⟩

/-- Calls of other connections leave what a lookup knows. -/
theorem Watched.other {phase : Phase H} (h : Watched host args seen db phase) (op : Op H M) :
    Watched host args (op.apply host db :: seen) (op.apply host db) phase := by
  have hsub : seen ⊆ op.apply host db :: seen := List.subset_cons_self _ _
  have hle : db.corpus.generation ≤ (op.apply host db).corpus.generation := by
    have hmoves := apply_generation host db op
    omega
  cases phase with
  | version row =>
    refine ⟨h.1, fun versionRow hrow => ?_⟩
    rcases version_origin hrow with hold | ⟨view, hview, hready, hcurrent⟩
    · exact (h.2 versionRow hold).mono hsub
    · exact ⟨_, List.mem_cons_self, hrow, view, hview, hcurrent, fun _ => hready⟩
  | sources row versionRow => exact Read.mono h hsub hle
  | validate reading rest =>
    refine ⟨h.1.mono hsub hle, fun d hd => ?_⟩
    rcases h.2 d hd with hrest | ⟨m, hm, hholds⟩
    · exact .inl hrest
    · exact .inr ⟨m, hsub hm, hholds⟩
  | corpus reading error => exact h
  | confirm reading | recheck reading counted => exact fun row => (h row).mono hsub
  | done result =>
    intro hhit
    obtain ⟨shaped, hview, hfresh⟩ := h hhit
    exact ⟨shaped, hview, hfresh.mono hsub⟩
  | start | expire row | mark reading reason | reread reading reason | delta reading row reason
  | lateDelta reading row | raised => trivial

/-! ## The statements of a lookup -/

theorem error_ne_nil {dependency : Dependency H} {message : String}
    (h : validateDependencyCurrent host db dependency = .error message) :
    message.toList ≠ [] := by
  rw [validateDependencyCurrent] at h
  split at h
  · obtain rfl := Except.error.inj h
    simp
  · split_ifs at h <;> obtain rfl := Except.error.inj h <;> simp

omit [DecidableEq H] in
/-- How a lookup goes on after the corpus state. -/
theorem judge_cases (host : Host H M) (args : LookupArgs) (generation : Nat) (reading : Reading H) (error : Text) :
    (∃ reason, judge host args generation reading error = .mark reading reason) ∨
    (∃ result, judge host args generation reading error = .done result ∧ result.status = .incomplete) ∨
    (error = [] ∧ reading.row.status ≠ .stale ∧ reading.row.status ≠ .expired ∧
      generation = reading.versionRow.corpusGeneration ∧
      (args.recordHit = true ∧ judge host args generation reading error = .confirm reading ∨
        args.recordHit = false ∧ judge host args generation reading error = .done
        ⟨.hit, hitReason, some (shape host args reading reading.row), [], false⟩)) := by
  rw [judge]
  by_cases hstale : reading.row.status = .stale ∨ reading.row.status = .expired ∨ error ≠ [] ∨
    generation ≠ reading.versionRow.corpusGeneration
  · rw [if_pos hstale]
    exact .inl ⟨_, rfl⟩
  · rw [if_neg hstale]
    simp only [not_or, not_not] at hstale
    obtain ⟨hnotStale, hnotExpired, herror, hwatermark⟩ := hstale
    by_cases hcomplete : reading.versionRow.completeness ≠ .complete
    · rw [if_pos hcomplete]
      exact .inr (.inl ⟨_, rfl, rfl⟩)
    · rw [if_neg hcomplete]
      refine .inr (.inr ⟨herror, hnotStale, hnotExpired, hwatermark, ?_⟩)
      cases args.recordHit with
      | true => exact .inl ⟨rfl, rfl⟩
      | false => exact .inr ⟨rfl, rfl⟩

/-- Where the corpus still is at the watermark, the moment of the version row is the moment of the hit. -/
theorem Timeline.fresh (ht : Timeline host c) {reading : Reading H}
    (hread : Read host args c.seen c.db reading.row reading.versionRow)
    (hvalid : ∀ d ∈ reading.dependencies, ∃ m ∈ c.seen,
      reading.versionRow.corpusGeneration ≤ m.corpus.generation ∧ Holds host m d)
    (hready : reading.row.status = .ready) (hwatermark : c.db.corpus.generation = reading.versionRow.corpusGeneration) :
    FreshReading host args c.seen reading := by
  intro row
  obtain ⟨m, hm, hversion, view, hview, hcurrent, hstatus⟩ := hread.located
  have hstill : ∀ m' ∈ c.seen, reading.versionRow.corpusGeneration ≤ m'.corpus.generation →
      m'.corpus.generation = reading.versionRow.corpusGeneration :=
    fun m' hm' hle => Nat.le_antisymm ((ht.before m' hm').trans hwatermark.le) hle
  have hgeneration := hstill m hm ((ht.sound m hm).past _ _ hversion)
  refine ⟨m, hm, rfl, ⟨view, hview, hstatus hready, hcurrent⟩, hversion, hgeneration, fun d hd => ?_, fun d hd => ?_⟩
  · exact (ht.sound m hm).holds _ _ d _ hd hversion hgeneration.symm
  · obtain ⟨m', hm', hle, hholds⟩ := hvalid d hd
    exact hholds.congr (ht.same m hm m' hm' (hgeneration.trans (hstill m' hm' hle).symm))

theorem Timeline.judged (ht : Timeline host c) {reading : Reading H} {error : Text}
    (hread : error = [] → Read host args c.seen c.db reading.row reading.versionRow ∧
      ∀ d ∈ reading.dependencies, ∃ m ∈ c.seen,
      reading.versionRow.corpusGeneration ≤ m.corpus.generation ∧ Holds host m d) :
    Watched host args c.seen c.db (judge host args c.db.corpus.generation reading error) := by
  rcases judge_cases host args c.db.corpus.generation reading error with ⟨reason, hjudge⟩ | ⟨result, hjudge, hstatus⟩ |
    ⟨herror, hstale, hexpired, hwatermark, hgoes⟩
  · rw [hjudge]
    trivial
  · rw [hjudge]
    intro hhit
    rw [hstatus] at hhit
    cases hhit
  · obtain ⟨hread, hvalid⟩ := hread herror
    have hready : reading.row.status = .ready := by
      obtain ⟨hbuilding, hfailed⟩ := hread.usable
      cases hstatus : reading.row.status <;> simp_all
    have hfresh := ht.fresh hread hvalid hready hwatermark
    rcases hgoes with ⟨-, hjudge⟩ | ⟨-, hjudge⟩
    · rw [hjudge]
      exact hfresh
    · rw [hjudge]
      exact fun _ => ⟨_, rfl, hfresh reading.row⟩

/-- A statement of the lookup, without what it writes. -/
theorem Timeline.watched (ht : Timeline host c) (h : Watched host args c.seen c.db c.phase) :
    Watched host args c.seen c.db (lookupStep host args c.db c.phase).2 := by
  obtain ⟨seen, db, phase, gained⟩ := c
  cases phase with
  | start =>
    rw [lookupStep]
    cases hrow : db.views.get (host.sha256 args.canonical) with
    | none => exact fun hhit => by cases hhit
    | some row =>
      simp only
      split_ifs with hidentity hbuilding hfailed hzero
      · exact fun hhit => by cases hhit
      · exact fun hhit => by cases hhit
      · exact fun hhit => by cases hhit
      · exact fun hhit => by cases hhit
      · exact ⟨⟨hbuilding, hfailed⟩, fun versionRow hversion => ⟨db, ht.here, hversion, row, hrow, rfl, id⟩⟩
  | version row =>
    obtain ⟨husable, hlocated⟩ := h
    rw [lookupStep]
    cases hversion : db.versions.get (host.sha256 args.canonical, row.currentVersion) with
    | none => exact fun hhit => by cases hhit
    | some versionRow =>
      simp only
      split
      · trivial
      · exact ⟨husable, hlocated versionRow hversion, (ht.sound db ht.here).past _ _ hversion⟩
  | expire row => exact fun hhit => by cases hhit
  | sources row versionRow => exact ⟨h, fun d hd => .inl hd⟩
  | validate reading rest =>
    obtain ⟨hread, hvalid⟩ := h
    cases rest with
    | nil => exact ht.judged fun _ => ⟨hread, fun d hd => (hvalid d hd).resolve_left List.not_mem_nil⟩
    | cons dependency rest =>
      rw [lookupStep]
      cases hvalidate : validateDependencyCurrent host db dependency with
      | error message => exact error_ne_nil hvalidate
      | ok u =>
        refine ⟨hread, fun d hd => ?_⟩
        rcases hvalid d hd with hrest | hseen
        · rcases List.mem_cons.mp hrest with rfl | hrest
          · exact .inr ⟨db, ht.here, hread.reached, validate_ok hvalidate⟩
          · exact .inl hrest
        · exact .inr hseen
  | corpus reading error => exact ht.judged fun herror => absurd herror h
  | mark reading reason => trivial
  | reread reading reason => trivial
  | delta reading row reason =>
    cases row with
    | none => trivial
    | some row => exact fun hhit => by cases hhit
  | confirm reading => exact h
  | recheck reading counted =>
    rw [lookupStep]
    cases hrow : db.views.get (host.sha256 args.canonical) with
    | none => trivial
    | some row =>
      simp only
      split
      · exact fun _ => ⟨_, rfl, h row⟩
      · trivial
  | lateDelta reading row => exact fun hhit => by cases hhit
  | done result => exact h
  | raised => trivial

theorem Timeline.watched_own (ht : Timeline host c) (h : Watched host args c.seen c.db c.phase) :
    Watched host args (c.own host args).seen (c.own host args).db (c.own host args).phase := by
  obtain ⟨op, hop⟩ := lookupStep_op host args c.db c.phase
  have hnext := (ht.watched h).other op
  rw [← hop] at hnext
  exact hnext

theorem calls_watched {ok : Phase H → Db H → Prop} (run : Calls host args ok c) :
    Timeline host c ∧ Watched host args c.seen c.db c.phase := by
  induction run with
  | start run =>
    refine ⟨⟨List.mem_singleton_self _, fun m hm => ?_, fun m hm => ?_, fun m hm m' hm' _ => ?_⟩, trivial⟩
    · rw [List.mem_singleton.mp hm]
      exact reaches_sound run
    · rw [List.mem_singleton.mp hm]
    · rw [List.mem_singleton.mp hm, List.mem_singleton.mp hm']
  | other op run ih => exact ⟨ih.1.other op, ih.2.other op⟩
  | own run meets ih => exact ⟨ih.1.own, ih.1.watched_own ih.2⟩

/-! ## The hit counter -/

theorem hits_updateWhere {guard : View → Bool} {f : View → View} (hf : ∀ view, (f view).hitCount = view.hitCount) :
    hits host args { db with views := db.views.updateWhere (host.sha256 args.canonical) guard f } =
      hits host args db := by
  rw [hits, hits, KeyedTable.get_updateWhere, if_pos rfl, Option.map_map]
  congr 2
  funext view
  simp only [Function.comp_apply]
  split
  · exact hf view
  · rfl

theorem hits_hit (db : Db H) (version generation : Nat) (now : Rat) :
    hits host args (hitTransaction (host.sha256 args.canonical) version generation now db) - hits host args db =
      if db.views.matches? (host.sha256 args.canonical) (isConfirmed version generation) then 1 else 0 := by
  rw [hits, hits, hitTransaction, KeyedTable.get_updateWhere, if_pos rfl, KeyedTable.matches?]
  cases db.views.get (host.sha256 args.canonical) with
  | none => rfl
  | some view =>
    simp only [Option.map_some, Option.getD_some, Option.any_some]
    split
    · simp [View.hit]
    · omega

/-- What the phase of a lookup says of the hits that it has counted. -/
def Counted (args : LookupArgs) (gained : Nat) : Phase H → Prop
  | .confirm _ => gained = 0 ∧ args.recordHit = true
  | .recheck _ counted => gained = (if counted then 1 else 0) ∧ args.recordHit = true
  | .done result => gained = if result.status = .hit ∧ args.recordHit = true then 1 else 0
  | _ => gained = 0

omit [DecidableEq H] in
theorem judge_counted (host : Host H M) (args : LookupArgs) (generation : Nat) (reading : Reading H) (error : Text) :
    Counted args 0 (judge host args generation reading error) := by
  rcases judge_cases host args generation reading error with ⟨reason, hjudge⟩ | ⟨result, hjudge, hstatus⟩ |
    ⟨-, -, -, -, ⟨hrecord, hjudge⟩ | ⟨hrecord, hjudge⟩⟩
  · rw [hjudge]
    rfl
  · rw [hjudge, Counted, hstatus]
    rfl
  · rw [hjudge]
    exact ⟨rfl, hrecord⟩
  · rw [hjudge, Counted, hrecord]
    rfl

/-- A lookup's own step counts at most its one hit. -/
theorem counted_own (h : Counted args c.gained c.phase) (hstill : StillConfirmed host args c.phase c.db) :
    Counted args (c.own host args).gained (c.own host args).phase := by
  obtain ⟨seen, db, phase, gained⟩ := c
  simp only [Call.own]
  cases phase with
  | start =>
    obtain rfl : gained = 0 := h
    rw [lookupStep]
    cases db.views.get (host.sha256 args.canonical) with
    | none => simp [Counted]
    | some row =>
      simp only
      split_ifs <;> simp [Counted]
  | version row =>
    obtain rfl : gained = 0 := h
    rw [lookupStep]
    cases db.versions.get (host.sha256 args.canonical, row.currentVersion) with
    | none => simp [Counted]
    | some versionRow =>
      simp only
      split <;> simp [Counted]
  | expire row =>
    obtain rfl : gained = 0 := h
    rw [lookupStep, expireTransaction, hits_updateWhere (f := View.toExpired args.now) fun _ => rfl]
    simp [Counted]
  | sources row versionRow =>
    obtain rfl : gained = 0 := h
    simp [lookupStep, Counted]
  | validate reading rest =>
    obtain rfl : gained = 0 := h
    cases rest with
    | nil =>
      rw [lookupStep, Nat.sub_self]
      exact judge_counted host args _ reading []
    | cons dependency rest =>
      rw [lookupStep]
      cases validateDependencyCurrent host db dependency with
      | error message => simp [Counted]
      | ok u => simp [Counted]
  | corpus reading error =>
    obtain rfl : gained = 0 := h
    rw [lookupStep, Nat.sub_self]
    exact judge_counted host args _ reading error
  | mark reading reason =>
    obtain rfl : gained = 0 := h
    rw [lookupStep, staleTransaction, hits_updateWhere (f := View.toStale reason args.now) fun _ => rfl]
    simp [Counted]
  | reread reading reason =>
    obtain rfl : gained = 0 := h
    simp [lookupStep, Counted]
  | delta reading row reason =>
    obtain rfl : gained = 0 := h
    cases row <;> simp [lookupStep, Counted]
  | confirm reading =>
    obtain ⟨rfl, hrecord⟩ := h
    rw [lookupStep, hits_hit]
    exact ⟨Nat.zero_add _, hrecord⟩
  | recheck reading counted =>
    obtain ⟨rfl, hrecord⟩ := h
    rw [lookupStep]
    cases counted with
    | true =>
      -- the row is there and confirmed, so this is a hit
      obtain ⟨row, hrow, hconfirmed⟩ := (Option.any_eq_true _ _).mp hstill
      simp only [hrow, hconfirmed, and_self, if_true, Nat.sub_self]
      simp [Counted, hrecord]
    | false =>
      cases db.views.get (host.sha256 args.canonical) with
      | none => simp [Counted]
      | some row => simp [Counted]
  | lateDelta reading row =>
    obtain rfl : gained = 0 := h
    simp [lookupStep, Counted]
  | done result =>
    rw [lookupStep, Nat.sub_self]
    exact h
  | raised =>
    obtain rfl : gained = 0 := h
    simp [lookupStep, Counted]

theorem calls_counted (run : Calls host args (StillConfirmed host args) c) : Counted args c.gained c.phase := by
  induction run with
  | start run => rfl
  | other op run ih => exact ih
  | own run meets ih => exact counted_own ih meets

/-- A hit is fresh at one store of the call, and counts once; nothing else counts, while the row of a confirmation
that counted is still confirmed when it is read again. -/
theorem hit_fresh (run : Calls host args (StillConfirmed host args) c) {result : Lookup H}
    (hdone : c.phase.result = some result) :
    (result.status = .hit → ∃ shaped, result.view = some shaped ∧ ∃ m ∈ c.seen, Fresh host args shaped m) ∧
      c.gained = if result.status = .hit ∧ args.recordHit = true then 1 else 0 := by
  have hphase := Phase.eq_done hdone
  have hwatched := (calls_watched run).2
  have hcounted := calls_counted run
  rw [hphase] at hwatched hcounted
  exact ⟨hwatched, hcounted⟩

end

/-! ## A claim between a confirmation and the reading after it -/

/-- The moves of a call: a call of another connection, or the next statement of its own. -/
def Call.after (host : Host H M) (args : LookupArgs) (c : Call H) (moves : List (Option (Op H M))) : Call H :=
  moves.foldl (fun c move => move.elim (c.own host args) (c.other host)) c

def Meets (host : Host H M) (args : LookupArgs) (ok : Phase H → Db H → Prop) : Call H → List (Option (Op H M)) → Prop
  | _, [] => True
  | c, some op :: moves => Meets host args ok (c.other host op) moves
  | c, none :: moves => ok c.phase c.db ∧ Meets host args ok (c.own host args) moves

theorem calls_after {host : Host H M} {args : LookupArgs} {ok : Phase H → Db H → Prop} :
    ∀ (moves : List (Option (Op H M))) {c : Call H},
    Calls host args ok c → Meets host args ok c moves → Calls host args ok (c.after host args moves)
  | [], _, run, _ => run
  | some op :: moves, _, run, h => calls_after moves (.other op run) h
  | none :: moves, _, run, ⟨hmeets, hrest⟩ => calls_after moves (.own run hmeets) hrest

/-- A lookup of the published view. -/
def teaCall : Call Text := ⟨[(runOps plainHost teaStart teaOps).db], (runOps plainHost teaStart teaOps).db, .start, 0⟩

theorem teaCall_calls (ok : Phase Text → Db Text → Prop) : Calls plainHost teaLookup ok teaCall :=
  .start (reaches_runOps teaOps (.start teaTable []) ⟨by decide, trivial, by decide, trivial, trivial⟩)

def ownMoves (n : Nat) : List (Option (Op Text Unit)) := List.replicate n none

theorem hit_fresh_tea : ∃ result shaped, (teaCall.after plainHost teaLookup (ownMoves 7)).phase.result =
    some result ∧ result.view = some shaped ∧
    (∃ m ∈ (teaCall.after plainHost teaLookup (ownMoves 7)).seen, Fresh plainHost teaLookup shaped m) ∧
    (teaCall.after plainHost teaLookup (ownMoves 7)).gained = 1 := by
  have hrun : Calls plainHost teaLookup (StillConfirmed plainHost teaLookup)
      (teaCall.after plainHost teaLookup (ownMoves 7)) :=
    calls_after _ (teaCall_calls _) ⟨by decide +kernel, by decide +kernel, by decide +kernel,
      by decide +kernel, by decide +kernel, by decide +kernel,
      by decide +kernel, trivial⟩
  have hseen : (teaCall.after plainHost teaLookup (ownMoves 7)).phase.result.map Lookup.status =
      some .hit := by decide +kernel
  obtain ⟨result, hresult, hstatus⟩ := Option.map_eq_some_iff.mp hseen
  obtain ⟨hhit, hcount⟩ := hit_fresh hrun hresult
  obtain ⟨shaped, hview, hfresh⟩ := hhit hstatus
  exact ⟨result, shaped, hresult, hview, hfresh, hcount.trans (if_pos ⟨hstatus, rfl⟩)⟩

/-- The confirmation counts, the view is claimed, and the lookup does not return a hit. -/
theorem hit_counted_lost : ∃ (c : Call Text) (result : Lookup Text),
    Calls plainHost teaLookup (fun _ _ => True) c ∧ c.phase.result = some result ∧
    result.status = .deltaRequired ∧ c.gained = 1 := by
  have hseen : (teaCall.after plainHost teaLookup
    (ownMoves 6 ++ some (.claim "q".toList ⟨0, 1, 1⟩ ['b'] 400) :: ownMoves 2)).phase.result.map Lookup.status =
      some .deltaRequired := by decide +kernel
  obtain ⟨result, hresult, hstatus⟩ := Option.map_eq_some_iff.mp hseen
  refine ⟨_, result, calls_after _ (teaCall_calls _) ?_, hresult, hstatus, by decide +kernel⟩
  exact ⟨trivial, trivial, trivial, trivial, trivial, trivial, trivial, trivial, trivial⟩

end QueryView
