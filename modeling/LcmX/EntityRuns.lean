import LcmX.EntitySteps

/-!
# Committed calls and runs

The draft of a committed call derives each table from the store before, its
payload is the log of that derivation, and the events stay until the one event
is appended.
-/
namespace EntityStore

open ChangeLog Fallible Draft

/-! ## The payload is the log of the tables -/

structure Draft.Derived (s : Store) (d : Draft) : Prop where
  entities : entityColumn.Derives (.active, none) s.entities d.store.entities d.payload.created.entities
    (entityLog d.payload.changes)
  aliases : aliasColumn.Derives none s.aliases d.store.aliases d.payload.created.aliases (aliasLog d.payload.changes)
  notes : noteColumn.Derives none s.notes d.store.notes d.payload.created.notes (noteLog d.payload.changes)
  events : d.store.events = s.events
  nextEvent : d.store.nextEvent = s.nextEvent

theorem derived_start (s : Store) : Draft.Derived s { store := s } := ⟨.start, .start, .start, rfl, rfl⟩

theorem entityLog_snoc (changes : List FieldChange) (ch : FieldChange) : entityLog (changes ++ [ch]) =
    match ch with | .entity c => entityLog changes ++ [c] | _ => entityLog changes := by
  cases ch <;> simp [entityLog, FieldChange.toEntity]

theorem aliasLog_snoc (changes : List FieldChange) (ch : FieldChange) : aliasLog (changes ++ [ch]) =
    match ch with | .aliasRow c => aliasLog changes ++ [c] | _ => aliasLog changes := by
  cases ch <;> simp [aliasLog, FieldChange.toAlias]

theorem noteLog_snoc (changes : List FieldChange) (ch : FieldChange) : noteLog (changes ++ [ch]) =
    match ch with | .note c => noteLog changes ++ [c] | _ => noteLog changes := by
  cases ch <;> simp [noteLog, FieldChange.toNote]

theorem logs_key (changes changes' : List FieldChange)
    (h : changes' = changes ∨ ∃ ch, changes' = changes ++ [.key ch]) : entityLog changes' = entityLog changes ∧
      aliasLog changes' = aliasLog changes ∧ noteLog changes' = noteLog changes := by
  rcases h with rfl | ⟨ch, rfl⟩
  · exact ⟨rfl, rfl, rfl⟩
  · exact ⟨entityLog_snoc _ _, aliasLog_snoc _ _, noteLog_snoc _ _⟩

variable {w : Writes} {s s' : Store} {d : Draft} {r : Returned}

/-- An act keeps the draft derived from its store. -/
theorem Act.derived {env : Env} {d' : Draft} (hact : Act env w d d') (hsound : d.Sound)
    (h : d.Derived s) : d'.Derived s := by
  cases hact with
  | log p hcreated hchanges htouches htouched hoverride =>
    constructor
    · rw [hcreated, hchanges]; exact h.entities
    · rw [hcreated, hchanges]; exact h.aliases
    · rw [hcreated, hchanges]; exact h.notes
    · exact h.events
    · exact h.nextEvent
  | entity row hfresh hfield => exact ⟨h.entities.insert row hfresh hfield, h.aliases, h.notes, h.events, h.nextEvent⟩
  | aliasRow row hid hfield hindex hvisible =>
    have hfresh : aliasColumn.key row ∉ d.store.aliases.map aliasColumn.key := by
      change row.aliasId ∉ _
      rw [hid]
      exact hsound.tables.alias_fresh
    exact ⟨h.entities, h.aliases.insert row hfresh hfield, h.notes, h.events, h.nextEvent⟩
  | note row hfresh hfield => exact ⟨h.entities, h.aliases, h.notes.insert row hfresh hfield, h.events, h.nextEvent⟩
  | writeEntity row v hrow hw =>
    constructor
    · exact (entityLog_snoc d.payload.changes _).symm ▸ h.entities.write row hrow.mem v
    · exact (aliasLog_snoc d.payload.changes _).symm ▸ h.aliases
    · exact (noteLog_snoc d.payload.changes _).symm ▸ h.notes
    · exact h.events
    · exact h.nextEvent
  | writeAlias row v hrow hindex hw =>
    constructor
    · exact (entityLog_snoc d.payload.changes _).symm ▸ h.entities
    · exact (aliasLog_snoc d.payload.changes _).symm ▸ h.aliases.write row hrow.mem v
    · exact (noteLog_snoc d.payload.changes _).symm ▸ h.notes
    · exact h.events
    · exact h.nextEvent
  | writeNote row v hrow =>
    constructor
    · exact (entityLog_snoc d.payload.changes _).symm ▸ h.entities
    · exact (aliasLog_snoc d.payload.changes _).symm ▸ h.aliases
    · exact (noteLog_snoc d.payload.changes _).symm ▸ h.notes.write row hrow.mem v
    · exact h.events
    · exact h.nextEvent
  | keys keys nextKey ticks p hcreated hchanges htouches htouched hw =>
    obtain ⟨l, hl⟩ := hcreated
    obtain ⟨he, ha, hn⟩ := logs_key _ _ hchanges
    constructor
    · rw [hl, he]; exact h.entities
    · rw [hl, ha]; exact h.aliases
    · rw [hl, hn]; exact h.notes
    · exact h.events
    · exact h.nextEvent

theorem Acts.derived {env : Env} (hs : Tables s)
    (hacts : Acts env w { store := s } d) : d.Derived s := by
  induction hacts with
  | refl => exact derived_start s
  | tail hbefore hact ih => exact hact.derived (Acts.sound hbefore (sound_start hs)) ih

/-! ## Committed calls -/

/-- Only keys are written. -/
def keyWrites : Writes := ⟨fun _ _ => False, fun _ _ _ => False, True⟩

/-- The call finds a holder of its verified platform id. -/
def Attaches (c : Context) (s : Store) (op : Op) : Prop :=
  ∃ pid name norm holder, op = .attachOrCreate pid name true ∧ platformId c.env.unicode pid = .ok norm ∧
    holderForPlatformId c.env s norm = .ok (some holder)

/-- How a call that does not raise ends. -/
inductive Committed (c : Context) (s : Store) : Op → Store → Prop
  | plain {op : Op} {name : OpName} {d : Draft} (hname : name ≠ .undo ∧ name ≠ .overrideKey ∧ hasInverse name = true)
      (hacts : Acts c.env (plainWrites s) { store := s } d) : Committed c s op (appendEvent name d.payload none d.store)
  | merge {into fromEntity : EntityId} {allow : Bool} {d : Draft}
      (h : merge into fromEntity allow { store := s } = .ok d) :
      Committed c s (.merge into fromEntity allow) (appendEvent .merge d.payload none d.store)
  | overrideKey {subject : String} {id : EntityId} {scope : Option (List Int)} {owner : Option EntityId} {d : Draft}
      (hacts : Acts c.env keyWrites { store := s } d) :
      Committed c s (.overrideKey subject id scope owner) (appendEvent .overrideKey d.payload none d.store)
  | undo {id : Nat} {s' : Store} (h : undo c id s = .ok s') : Committed c s (.undo id) s'
  | attached {op : Op} (h : Attaches c s op) : Committed c s op s

theorem logged_ok {name : OpName} {body : Draft → Except Refusal Draft} {r' : Returned}
    (h : logged name body r s = .ok (s', r')) :
    ∃ d, body { store := s } = .ok d ∧ s' = appendEvent name d.payload none d.store := by
  rw [logged, bind_ok] at h
  obtain ⟨d, hd, h⟩ := h
  cases h
  exact ⟨d, hd, rfl⟩

/-- An operation whose body is a sequence of plain acts. -/
theorem committed_plain {c : Context} {op : Op} {name : OpName} {body : Draft → Except Refusal Draft}
    {r' : Returned} (hs : Tables s) (hname : name ≠ .undo ∧ name ≠ .overrideKey ∧ hasInverse name = true)
    (hbody : ∀ d, Draft.Sound { store := s } → body { store := s } = .ok d →
      Acts c.env (plainWrites s) { store := s } d)
    (h : logged name body r s = .ok (s', r')) : Committed c s op s' := by
  obtain ⟨d, hd, rfl⟩ := logged_ok h
  exact .plain hname (hbody d (sound_start hs) hd)

/-- What an operation that returns has committed. -/
theorem execute_committed {c : Context} {op : Op} (hs : Tables s)
    (h : execute c s op = .ok (s', r)) : Committed c s op s' := by
  cases op with
  | createEntity name kind => exact committed_plain hs (by decide) (fun d _ hd => newEntity_acts hd) h
  | addAlias id display options => exact committed_plain hs (by decide) (fun d hsound hd => addAlias_acts hsound hd) h
  | retireAlias id => exact committed_plain hs (by decide) (fun d hsound hd => retireAlias_acts hsound hd) h
  | addNote text options => exact committed_plain hs (by decide) (fun d _ hd => addNote_acts hd) h
  | changeKind id kind => exact committed_plain hs (by decide) (fun d _ hd => changeKind_acts hd) h
  | merge into fromEntity allow =>
    obtain ⟨d, hd, rfl⟩ := logged_ok h
    exact .merge hd
  | split id aliasIds noteIds name kind =>
    exact committed_plain hs (by decide) (fun d hsound hd => split_acts hsound hd) h
  | attachOrCreate pid name verified =>
    simp only [execute, attachOrCreate, bind_ok] at h
    obtain ⟨norm, hnorm, h⟩ := h
    split at h
    · cases h
    · rename_i hverified
      simp only [bind_ok] at h
      obtain ⟨holder, hholder, h⟩ := h
      split at h
      · rename_i found
        cases h
        rw [Bool.not_eq_false] at hverified
        exact .attached ⟨pid, name, norm, found, by rw [hverified], hnorm, hholder⟩
      · exact committed_plain hs (by decide) (fun d hsound hd => createForPlatformId_acts hsound hd) h
  | overrideKey subject id scope owner =>
    obtain ⟨d, hd, rfl⟩ := logged_ok h
    have hkeys : keyWrites.keys := trivial
    exact .overrideKey (overrideKey_acts hkeys hd)
  | undo id =>
    simp only [execute] at h
    cases hu : undo c id s with
    | error e =>
      rw [hu] at h
      cases h
    | ok s1 =>
      rw [hu] at h
      cases h
      exact .undo hu

/-- What an undo that commits has checked. -/
structure UndoOk (c : Context) (id : Nat) (s : Store) (target : Event) (p : Payload) : Prop where
  mem : target ∈ s.events
  eventId : target.eventId = id
  op : target.op ≠ .undo
  standing : id ∉ undone s
  payload : target.payload = some p
  free : blockers s id p.touches = []

theorem undoPlan_ok {c : Context} {id : Nat} {target : Event} {created : Created} {changes : List FieldChange}
    (h : undoPlan c id s = .ok (target, created, changes)) : ∃ p keys, UndoOk c id s target p ∧
      safeChanges c.env s keys p.changes = .ok changes ∧ created = { p.created with keys := keys } := by
  unfold undoPlan at h
  split at h
  · cases h
  · rename_i found hfind
    split at h
    · cases h
    · rename_i hop
      split at h
      · cases h
      · rename_i hstanding
        split at h
        · cases h
        · rename_i p hp
          split at h
          · cases h
          · split at h
            · cases h
            · rename_i hfree
              simp only [bind_ok] at h
              obtain ⟨keys, -, safe, hsafe, -, -, h⟩ := h
              cases h
              have hid : target.eventId = id := by simpa using List.find?_some hfind
              exact ⟨p, keys, ⟨List.mem_of_find?_eq_some hfind, hid, hop, hstanding, hp, not_not.mp hfree⟩, hsafe, rfl⟩

theorem undo_ok {c : Context} {id : Nat} (h : undo c id s = .ok s') :
    ∃ target p keys changes d, UndoOk c id s target p ∧ safeChanges c.env s keys p.changes = .ok changes ∧
      undoBody c (derivation s p) { p.created with keys := keys } changes s = .ok d ∧
      s' = appendEvent .undo d.payload (some id) d.store := by
  rw [undo, bind_ok] at h
  obtain ⟨⟨target, created, changes⟩, hplan, h⟩ := h
  simp only [bind_ok] at h
  obtain ⟨d, hd, h⟩ := h
  have hbody : undoBody c (target.payload.bind (derivation s)) created changes s = .ok d := by
    unfold refuseClash at hd
    split at hd
    · exact keyHeld_ok.mp hd
    · exact hd
  obtain ⟨p, keys, hok, hsafe, rfl⟩ := undoPlan_ok hplan
  cases h
  rw [hok.payload, Option.bind_some] at hbody
  exact ⟨target, p, keys, changes, d, hok, hsafe, hbody, rfl⟩

/-! ## Well-formed stores -/

/-- Events are counted up, and an undo names an event of the log. -/
structure EventLog (s : Store) : Prop where
  order : s.events.Pairwise (fun a b => a.eventId < b.eventId)
  below : ∀ e ∈ s.events, e.eventId < s.nextEvent
  targets : ∀ e ∈ s.events, ∀ t, e.targetEventId = some t → t < s.nextEvent

structure WellFormed (s : Store) : Prop where
  tables : Tables s
  log : EventLog s

/-- An event behind the log keeps it ordered. -/
theorem eventLog_append (h : EventLog s) (hd : d.store.events = s.events)
    (hn : d.store.nextEvent = s.nextEvent) (op : OpName) {target : Option Nat}
    (ht : ∀ t, target = some t → t < s.nextEvent) :
    EventLog (appendEvent op d.payload target d.store) := by
  have hevents : (appendEvent op d.payload target d.store).events =
      s.events ++ [⟨s.nextEvent, op, some d.payload, target⟩] := by
    rw [← hd, ← hn]
    rfl
  have hnext : (appendEvent op d.payload target d.store).nextEvent = s.nextEvent + 1 := by
    rw [← hn]
    rfl
  constructor
  · rw [hevents, List.pairwise_append]
    refine ⟨h.order, List.pairwise_singleton _ _, ?_⟩
    intro a ha b hb
    rw [List.mem_singleton.mp hb]
    exact h.below a ha
  · intro e he
    rw [hevents, List.mem_append] at he
    rw [hnext]
    cases he with
    | inl he => exact Nat.lt_succ_of_lt (h.below e he)
    | inr he =>
      rw [List.mem_singleton.mp he]
      exact Nat.lt_succ_self _
  · intro e he t hte
    rw [hevents, List.mem_append] at he
    rw [hnext]
    cases he with
    | inl he => exact Nat.lt_succ_of_lt (h.targets e he t hte)
    | inr he =>
      rw [List.mem_singleton.mp he] at hte
      exact Nat.lt_succ_of_lt (ht t hte)

theorem tables_append (h : Tables s) (op : OpName) (p : Payload) (target : Option Nat) :
    Tables (appendEvent op p target s) :=
  ⟨h.entityIds, h.aliasIds, h.aliasBelow, h.noteIds, h.index⟩

/-- A commit of acts keeps the store well formed. -/
theorem wellFormed_append {env : Env} (h : WellFormed s)
    (hacts : Acts env w { store := s } d) (op : OpName) {target : Option Nat}
    (ht : ∀ t, target = some t → t < s.nextEvent) :
    WellFormed (appendEvent op d.payload target d.store) := by
  have hd := hacts.derived h.tables
  exact ⟨tables_append (hacts.sound (sound_start h.tables)).tables _ _ _,
    eventLog_append h.log hd.events hd.nextEvent op ht⟩

theorem merge_acts_any {c : Context} {into fromEntity : EntityId} {allow : Bool} {d' : Draft}
    (h : merge into fromEntity allow d = .ok d') : Acts c.env anyWrites d d' :=
  merge_acts (fun _ _ => trivial) h

/-- Every commit but an attachment appends one event that logs its acts. -/
theorem Committed.acts {c : Context} {op : Op} (h : Committed c s op s') (hs : EventLog s) :
    (Attaches c s op ∧ s' = s) ∨ ∃ d name target, Acts c.env anyWrites { store := s } d ∧
      (∀ t, target = some t → t < s.nextEvent) ∧ s' = appendEvent name d.payload target d.store := by
  cases h with
  | plain hname hacts =>
    exact Or.inr ⟨_, _, none, hacts.mono (fun _ _ _ => trivial) (fun _ _ _ _ => trivial) (fun _ => trivial),
      fun t ht => (by cases ht), rfl⟩
  | merge hm => exact Or.inr ⟨_, _, none, merge_acts_any hm, fun t ht => (by cases ht), rfl⟩
  | overrideKey hacts =>
    exact Or.inr ⟨_, _, none, hacts.mono (fun _ _ _ => trivial) (fun _ _ _ _ => trivial) (fun _ => trivial),
      fun t ht => (by cases ht), rfl⟩
  | undo hu =>
    obtain ⟨target, p, keys, changes, d, hok, -, hbody, rfl⟩ := undo_ok hu
    refine Or.inr ⟨d, .undo, some _, undoBody_acts hbody, fun t ht => ?_, rfl⟩
    rw [← Option.some.inj ht, ← hok.eventId]
    exact hs.below target hok.mem
  | attached ha => exact Or.inl ⟨ha, rfl⟩

theorem Committed.wellFormed {c : Context} {op : Op} (h : Committed c s op s') (hs : WellFormed s) :
    WellFormed s' := by
  rcases h.acts hs.log with ⟨-, rfl⟩ | ⟨d, name, target, hacts, ht, rfl⟩
  · exact hs
  · exact wellFormed_append hs hacts name ht

/-! ## Runs -/

/-- The stores of an empty scope. Between the calls a job rebuilds the derived key
index: it writes key rows and appends no event, and here it may leave any rows. -/
inductive Reachable : Store → Prop
  | empty (nextAlias nextKey nextEvent : Nat) : Reachable (emptyScope nextAlias nextKey nextEvent)
  | call {s : Store} (h : Reachable s) (c : Context) (op : Op) : Reachable (step c s op).1
  | rebuild {s : Store} (h : Reachable s) (keys : List KeyRow) (nextKey : Nat) :
      Reachable { s with keys := keys, nextKey := nextKey }

theorem Reachable.run (h : Reachable s) (calls : List (Context × Op)) : Reachable (run s calls) := by
  induction calls generalizing s with
  | nil => exact h
  | cons call calls ih => exact ih (h.call call.1 call.2)

theorem wellFormed_empty (nextAlias nextKey nextEvent : Nat) : WellFormed (emptyScope nextAlias nextKey nextEvent) :=
  ⟨⟨List.nodup_nil, List.nodup_nil, by simp [emptyScope], List.nodup_nil, by simp [emptyScope]⟩,
    ⟨List.Pairwise.nil, by simp [emptyScope], by simp [emptyScope]⟩⟩

/-- A call leaves the store or commits. -/
theorem step_cases {c : Context} (hs : Tables s) (op : Op) :
    (step c s op).1 = s ∨ Committed c s op (step c s op).1 := by
  unfold step
  split
  · rename_i s' r he
    exact Or.inr (execute_committed hs he)
  · exact Or.inl rfl

theorem wellFormed_rebuild (h : WellFormed s) (keys : List KeyRow) (nextKey : Nat) :
    WellFormed { s with keys := keys, nextKey := nextKey } :=
  ⟨⟨h.tables.entityIds, h.tables.aliasIds, h.tables.aliasBelow, h.tables.noteIds, h.tables.index⟩,
    ⟨h.log.order, h.log.below, h.log.targets⟩⟩

/-- What holds of empty scopes, is kept by every commit and does not read the keys
holds in every reachable store. -/
theorem Reachable.induction {P : Store → Prop} (hempty : ∀ a k e, P (emptyScope a k e))
    (hstep : ∀ c s op s', WellFormed s → P s → Committed c s op s' → P s')
    (hkeys : ∀ s keys nextKey, P s → P { s with keys := keys, nextKey := nextKey }) (h : Reachable s) :
    WellFormed s ∧ P s := by
  induction h with
  | empty a k e => exact ⟨wellFormed_empty a k e, hempty a k e⟩
  | @call s _ c op ih =>
    cases step_cases ih.1.tables (c := c) op with
    | inl hsame =>
      rw [hsame]
      exact ih
    | inr hcommit => exact ⟨hcommit.wellFormed ih.1, hstep _ _ _ _ ih.1 ih.2 hcommit⟩
  | rebuild _ keys nextKey ih => exact ⟨wellFormed_rebuild ih.1 keys nextKey, hkeys _ keys nextKey ih.2⟩

theorem Reachable.wellFormed (h : Reachable s) : WellFormed s :=
  (h.induction (P := fun _ => True) (fun _ _ _ => trivial) (fun _ _ _ _ _ _ _ => trivial)
    (fun _ _ _ _ => trivial)).1

/-! ## A plain environment -/

/-- Letters and digits as they stand. -/
def plainUnicode : Unicode where
  nfkc := id
  casefold := id
  lower := id
  isSpace := fun c => c = ' '
  isPunctuation := fun _ => false

def plainContext (entity : EntityId) : Context where
  env := { unicode := plainUnicode }
  now := fun n => n
  newEntity := entity
  newNote := fun n => n

end EntityStore
