import LcmX.EntityRuns

/-!
# The event log reproduces the projected fields

The payload of a commit is the log of what it did to the tables, so replaying
one more event keeps pace with the tables.
-/
namespace EntityStore

open ChangeLog Fallible Draft Column

/-- The projection shows the stored fields, and nothing else. -/
structure Projection.Shows (r : Projection) (s : Store) : Prop where
  entities : r.entities = entityColumn.value s.entities
  aliases : r.aliases = aliasColumn.value s.aliases
  notes : r.notes = noteColumn.value s.notes

theorem changes_entities (changes : List FieldChange) : ∀ r : Projection,
    (changes.foldl Projection.change r).entities = redo r.entities (entityLog changes) := by
  induction changes with
  | nil => exact fun _ => rfl
  | cons ch changes ih =>
    intro r
    rw [List.foldl_cons, ih]
    cases ch <;> rfl

theorem changes_aliases (changes : List FieldChange) : ∀ r : Projection,
    (changes.foldl Projection.change r).aliases = redo r.aliases (aliasLog changes) := by
  induction changes with
  | nil => exact fun _ => rfl
  | cons ch changes ih =>
    intro r
    rw [List.foldl_cons, ih]
    cases ch <;> rfl

theorem changes_notes (changes : List FieldChange) : ∀ r : Projection,
    (changes.foldl Projection.change r).notes = redo r.notes (noteLog changes) := by
  induction changes with
  | nil => exact fun _ => rfl
  | cons ch changes ih =>
    intro r
    rw [List.foldl_cons, ih]
    cases ch <;> rfl

/-- One more event shows what its draft has made of the tables. -/
theorem shows_event {r : Projection} {s : Store} {d : Draft} (hr : r.Shows s) (hs : Tables s) (hd : d.Derived s) :
    (r.event d.payload).Shows d.store where
  entities := by
    rw [Projection.event, changes_entities, hd.entities.value_eq hs.entityIds, ← hr.entities]
    rfl
  aliases := by
    rw [Projection.event, changes_aliases, hd.aliases.value_eq hs.aliasIds, ← hr.aliases]
    rfl
  notes := by
    rw [Projection.event, changes_notes, hd.notes.value_eq hs.noteIds, ← hr.notes]
    rfl

theorem replay_append {s : Store} {d : Draft} {r : Projection} (hd : d.store.events = s.events)
    (hr : replayProjection s = .ok r) (op : OpName) (target : Option Nat) :
    replayProjection (appendEvent op d.payload target d.store) = .ok (r.event d.payload) := by
  have hevents : (appendEvent op d.payload target d.store).events =
      s.events ++ [⟨d.store.nextEvent, op, some d.payload, target⟩] := by
    rw [← hd]
    rfl
  rw [replayProjection, hevents, List.foldlM_append, bind_ok]
  exact ⟨r, hr, rfl⟩

/-- In every reachable store the replay succeeds and shows the tables. -/
theorem replay_reachable {s : Store} (h : Reachable s) : ∃ r, replayProjection s = .ok r ∧ r.Shows s := by
  have hinv : WellFormed s ∧ ∃ r, replayProjection s = .ok r ∧ r.Shows s := by
    refine Reachable.induction (P := fun s => ∃ r, replayProjection s = .ok r ∧ r.Shows s) ?_ ?_ ?_ h
    · exact fun a k e => ⟨Projection.empty, rfl, rfl, rfl, rfl⟩
    · intro c s op s' hw hp hcommit
      obtain ⟨r, hr, hshows⟩ := hp
      rcases hcommit.acts hw.log with ⟨-, rfl⟩ | ⟨d, name, target, hacts, -, rfl⟩
      · exact ⟨r, hr, hshows⟩
      · have hd := hacts.derived hw.tables
        have hshown := shows_event hshows hw.tables hd
        exact ⟨r.event d.payload, replay_append hd.events hr name target, hshown.entities, hshown.aliases, hshown.notes⟩
    · rintro s keys nextKey ⟨r, hr, hshows⟩
      exact ⟨r, hr, hshows.entities, hshows.aliases, hshows.notes⟩
  exact hinv.2

/-! ## One commit, one event -/

/-- Replay shows the stored fields in every reachable store; a refused call
changes nothing; a committed one appends one event, unless it attaches to the
holder of a platform id and changes nothing. -/
theorem event_sourcing (s : Store) (h : Reachable s) :
    (∃ r, replayProjection s = .ok r ∧ r.Shows s) ∧
    ∀ (c : Context) (op : Op),
      (∀ refusal, (step c s op).2 = .error refusal → (step c s op).1 = s) ∧
      (∀ returned, (step c s op).2 = .ok returned →
        (∃ e, (step c s op).1.events = s.events ++ [e]) ∨ (Attaches c s op ∧ (step c s op).1 = s)) := by
  refine ⟨replay_reachable h, fun c op => ?_⟩
  have hw := h.wellFormed
  unfold step
  split
  · rename_i s' r he
    refine ⟨fun refusal hr => (by cases hr), fun returned _ => ?_⟩
    rcases (execute_committed hw.tables he).acts hw.log with hattach | ⟨d, name, target, hacts, -, rfl⟩
    · exact Or.inr hattach
    · have hd := hacts.derived hw.tables
      exact Or.inl ⟨_, by rw [← hd.events]; rfl⟩
  · exact ⟨fun _ _ => rfl, fun returned hr => (by cases hr)⟩

/-- A second message of one sender. -/
def secondMessage : Store := run (emptyScope 1 1 1) [(plainContext 1, .attachOrCreate "tg:7" "Ann" true)]

theorem event_sourcing_second_message : ∃ r, replayProjection secondMessage = .ok r ∧ r.Shows secondMessage :=
  (event_sourcing secondMessage ((Reachable.empty 1 1 1).run _)).1

/-- The sender of the message has a holder: the call commits and logs nothing. -/
theorem attached_without_event :
    secondMessage = run (emptyScope 1 1 1) [(plainContext 1, .attachOrCreate "tg:7" "Ann" true)] ∧
    (step (plainContext 2) secondMessage (.attachOrCreate "tg:7" "Ann" true)).2 = .ok (.entity 1) ∧
    (step (plainContext 2) secondMessage (.attachOrCreate "tg:7" "Ann" true)).1.events = secondMessage.events := by
  decide +kernel

end EntityStore
