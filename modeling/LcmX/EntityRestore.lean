import LcmX.EntityUndo
import LcmX.EntityMerge

/-!
# Undoing everything, last event first

Rows and events are never deleted. After the undo of an event the store is the
one before the event, followed by rows that are void and events that are undone
or undo one. The resolved view does not see these.
-/
namespace EntityStore

open ChangeLog Fallible Draft

/-- The table `rows` followed by void rows; no row of it has become void. -/
def Extends {ρ κ : Type} (key : ρ → κ) (void voidNow : List κ) (rows rowsNow : List ρ) : Prop :=
  ∃ junk, rowsNow = rows ++ junk ∧ (∀ r ∈ junk, key r ∈ voidNow) ∧ ∀ r ∈ rows, key r ∈ voidNow ↔ key r ∈ void

variable {ρ κ : Type} {t : Store} {d : Draft} {name : OpName}

theorem Extends.refl (key : ρ → κ) (void : List κ) (rows : List ρ) : Extends key void void rows rows :=
  ⟨[], by simp, by simp, fun _ _ => Iff.rfl⟩

/-- What skips void rows sees the table. -/
theorem Extends.filter_eq {key : ρ → κ} {void voidNow : List κ} {rows rowsNow : List ρ}
    (h : Extends key void voidNow rows rowsNow) {p q : ρ → Bool} (hvoid : ∀ r, key r ∈ voidNow → p r = false)
    (hsame : ∀ r, (key r ∈ voidNow ↔ key r ∈ void) → p r = q r) : rowsNow.filter p = rows.filter q := by
  obtain ⟨junk, rfl, hjunk, hrows⟩ := h
  have hnone : junk.filter p = [] := by
    rw [List.filter_eq_nil_iff]
    intro r hr
    rw [hvoid r (hjunk r hr)]
    exact Bool.false_ne_true
  rw [List.filter_append, hnone, List.append_nil]
  exact List.filter_congr (fun r hr => hsame r (hrows r hr))

/-- The recorded writes are taken back, on top of writes to the new rows, and the
new rows become void. -/
theorem Extends.rewind {φ : Type} [DecidableEq κ] {c : Column ρ κ φ} {first : φ} {rows0 rows rowsNow : List ρ}
    {created : List κ} {log : List (Change κ φ)} {void0 void voidNow voidNext : List κ} (ws : List (κ × φ))
    (hd : c.Derives first rows0 rows created log) (h0 : (rows0.map c.key).Nodup)
    (h : Extends c.key void voidNow rows rowsNow) (hws : ws.map Prod.fst ⊆ created)
    (hvoid : ∀ k, k ∈ void ↔ k ∈ void0) (hnext : ∀ k, k ∈ voidNext ↔ k ∈ voidNow ∨ k ∈ created) :
    Extends c.key void0 voidNext rows0 (c.rewind log (c.writeAll ws rowsNow)) := by
  obtain ⟨junk, rfl, hjunk, hrows⟩ := h
  have hkeys := hd.map_key
  have hnodup := hd.nodup h0
  obtain ⟨base, made, rfl, hmade, hbase⟩ := hd.rewind_eq h0
  rw [List.map_append, hmade] at hkeys hnodup
  have hbaseKeys : base.map c.key = rows0.map c.key := List.append_cancel_right hkeys
  have hfresh : ∀ k ∈ rows0.map c.key, k ∉ created := by
    intro k hk hin
    exact (List.nodup_append.mp hnodup).2.2 k (hbaseKeys ▸ hk) k hin rfl
  have hwrites : c.writeAll ws base = base := by
    apply c.writeAll_of_disjoint
    intro w hw hin
    exact hfresh _ (hbaseKeys ▸ hin) (hws (List.mem_map_of_mem hw))
  refine ⟨c.rewind log (c.writeAll ws made) ++ c.rewind log (c.writeAll ws junk), ?_, ?_, ?_⟩
  · rw [c.writeAll_append, c.writeAll_append, c.rewind_append, c.rewind_append, hwrites, hbase, List.append_assoc]
  · intro r hr
    rw [hnext]
    cases List.mem_append.mp hr with
    | inl hr =>
      right
      have hin := List.mem_map_of_mem (f := c.key) hr
      rwa [c.map_key_rewind, c.map_key_writeAll, hmade] at hin
    | inr hr =>
      left
      have hin := List.mem_map_of_mem (f := c.key) hr
      rw [c.map_key_rewind, c.map_key_writeAll] at hin
      obtain ⟨r0, hr0, hk⟩ := List.mem_map.mp hin
      exact hk ▸ hjunk r0 hr0
  · intro r hr
    have hin := List.mem_map_of_mem (f := c.key) hr
    obtain ⟨r0, hr0, hk⟩ := List.mem_map.mp (hbaseKeys.symm ▸ hin)
    have hold := hrows r0 (List.mem_append_left _ hr0)
    rw [hk] at hold
    rw [hnext, ← hvoid, ← hold]
    exact ⟨fun h => h.resolve_right (hfresh _ hin), Or.inl⟩

/-- The store `t` is `s` followed by what no longer counts. -/
structure Restores (s t : Store) : Prop where
  wellFormed : WellFormed t
  entities : Extends Entity.entityId (voided Created.entities s) (voided Created.entities t) s.entities t.entities
  aliases : Extends Alias.aliasId (voided Created.aliases s) (voided Created.aliases t) s.aliases t.aliases
  notes : Extends Note.noteId (voided Created.notes s) (voided Created.notes t) s.notes t.notes
  active : ∀ row ∈ t.aliases, row.retiredAt = none → row ∈ s.aliases
  keys : t.keys = s.keys
  events : ∃ later, t.events = s.events ++ later ∧
    ∀ e ∈ later, s.nextEvent ≤ e.eventId ∧ (e.op = .undo ∨ e.eventId ∈ undone t)
  nextEvent : s.nextEvent ≤ t.nextEvent
  standing : ∀ id < s.nextEvent, id ∈ undone t ↔ id ∈ undone s

theorem Restores.refl {s : Store} (hs : WellFormed s) : Restores s s where
  wellFormed := hs
  entities := .refl _ _ _
  aliases := .refl _ _ _
  notes := .refl _ _ _
  active := fun _ hrow _ => hrow
  keys := rfl
  events := ⟨[], by simp, by simp⟩
  nextEvent := Nat.le_refl _
  standing := fun _ _ => Iff.rfl

/-! ## The view -/

theorem Restores.kindChange_eq {s : Store} (h : Restores s t) (hs : EventLog s) : kindChange t = kindChange s := by
  funext id
  obtain ⟨later, hevents, hlater⟩ := h.events
  rw [kindChange, kindChange, hevents, List.foldl_append]
  have hskip : ∀ (l : List Event), (∀ e ∈ l, e.op = .undo ∨ e.eventId ∈ undone t) → ∀ kind : Option Kind,
      l.foldl (fun kind e => if e.eventId ∉ undone t ∧ e.op = .changeKind then kindAfter id kind e
        else kind) kind = kind := by
    intro l
    induction l with
    | nil => exact fun _ _ => rfl
    | cons e l ih =>
      intro hl kind
      have hno : ¬ (e.eventId ∉ undone t ∧ e.op = .changeKind) := by
        rintro ⟨hstanding, hop⟩
        cases hl e List.mem_cons_self with
        | inl hundo => simp [hop] at hundo
        | inr hundone => exact hstanding hundone
      rw [List.foldl_cons, if_neg hno]
      exact ih (fun x hx => hl x (List.mem_cons_of_mem _ hx)) kind
  rw [hskip later (fun e he => (hlater e he).2)]
  apply List.foldl_ext
  intro kind e he
  simp only [h.standing e.eventId (hs.below e he)]

theorem Restores.liveEntities_eq {s : Store} (h : Restores s t) : liveEntities t = liveEntities s := by
  apply h.entities.filter_eq
  · intro r hr
    simp [hr]
  · intro r hr
    simp [hr]

theorem Restores.visibleAliases_eq {s : Store} (h : Restores s t) (env : Env) (access : Access) :
    visibleAliases env access t = visibleAliases env access s := by
  apply h.aliases.filter_eq
  · intro r hr
    simp [hr]
  · intro r hr
    simp [hr]

theorem Restores.visibleNotes_eq {s : Store} (h : Restores s t) (env : Env) (access : Access) :
    visibleNotes env access t = visibleNotes env access s := by
  apply h.notes.filter_eq
  · intro r hr
    simp [hr]
  · intro r hr
    simp [hr]

theorem Restores.resolvedView_eq {s : Store} (h : Restores s t) (hs : EventLog s) (env : Env) (access : Access)
    (platformNorm : Option String) :
      resolvedView env access platformNorm t = resolvedView env access platformNorm s := by
  simp only [resolvedView, viewOf, viewKeys, h.liveEntities_eq, h.visibleAliases_eq, h.visibleNotes_eq,
    h.kindChange_eq hs, h.keys]

/-! ## One event -/

/-- The new rows of the log have ids below the counter. -/
theorem voided_below {s : Store} (h : Reachable s) : ∀ id ∈ voided Created.aliases s, id < s.nextAlias := by
  have hinv : WellFormed s ∧ ∀ e ∈ s.events, ∀ p, e.payload = some p → ∀ id ∈ p.created.aliases, id < s.nextAlias := by
    refine h.induction (P := fun s => ∀ e ∈ s.events, ∀ p, e.payload = some p →
      ∀ id ∈ p.created.aliases, id < s.nextAlias)
      (fun a k e => by simp [emptyScope]) ?_ (fun s keys nextKey hp => hp)
    intro c s op s' hw hp hcommit
    rcases hcommit.acts hw.log with ⟨-, rfl⟩ | ⟨d, name, target, hacts, -, rfl⟩
    · exact hp
    · have hd := hacts.derived hw.tables
      have hsound := hacts.sound (sound_start hw.tables)
      intro e he p hep id hid
      rcases (appends_appendEvent hd name target).mem.mp he with he | rfl
      · exact Nat.lt_of_lt_of_le (hp e he p hep id hid) hacts.nextAlias_le
      · cases hep
        have hin : id ∈ d.store.aliases.map aliasColumn.key := by
          rw [hd.aliases.map_key]
          exact List.mem_append_right _ hid
        obtain ⟨row, hrow, hrid⟩ := List.mem_map.mp hin
        exact hrid ▸ hsound.tables.aliasBelow row hrow
  intro id hid
  obtain ⟨e, he, -, p, hp, hin⟩ := mem_voided.mp hid
  exact hinv.2 e he p hp id hin

/-- What is ready to be undone stays so while its rows can be read and no alias
comes back. -/
theorem Ready.carry {env : Env} {s u : Store} {p : Payload} (h : Ready env s t p) (hu : Tables u)
    (hentity : ∀ row, LiveEntity t row → LiveEntity u row)
    (halias : ∀ row, ReadableAlias env t row → ReadableAlias env u row)
    (hnote : ∀ row, ReadableNote env t row → ReadableNote env u row)
    (hactive : ∀ row ∈ u.aliases, row.retiredAt = none → row ∈ t.aliases) : Ready env s u p := by
  constructor
  · intro ch hch
    have hfix := h.changes ch hch
    cases ch with
    | entity ch => exact hfix.imp (fun row hrow => ⟨hentity row hrow.1, hrow.2⟩)
    | aliasRow ch => exact hfix.imp (fun row hrow => ⟨halias row hrow.1, hrow.2⟩)
    | note ch => exact hfix.imp (fun row hrow => ⟨hnote row hrow.1, hrow.2⟩)
    | key ch => exact hfix
  · intro id hid
    obtain ⟨hle, row, hrow, hrid⟩ := h.created id hid
    exact ⟨hle, row, halias row hrow, hrid⟩
  · intro ch hch
    obtain ⟨hbefore, hrows⟩ := h.retired ch hch
    refine ⟨hbefore, fun row hrow hid => ?_⟩
    -- the written row is there, and it is the only one with its id
    obtain ⟨r, hr, hrid⟩ := h.changes _ (of_mem_aliasLog hch)
    rw [hu.alias_unique hrow (halias r hr).mem (hid.trans hrid.symm)]
    exact hrows r hr.mem hrid
  · exact fun row hrow hnone => h.kept row (hactive row hrow hnone) hnone
  · exact h.noKeys
  · exact h.noOverride

theorem Ready.append {env : Env} {s : Store} (h : Ready env s d.store d.payload) (hs : WellFormed s)
    (hd : d.Derived s) (hsound : d.Sound) (hname : name ≠ .undo) :
    Ready env s (appendEvent name d.payload none d.store) d.payload := by
  have hvoid : ∀ {α : Type} (ids : Created → List α) (x : α),
      x ∈ voided ids (appendEvent name d.payload none d.store) → x ∈ voided ids d.store := by
    intro α ids x hx
    rw [(appends_appendEvent hd name none).voided_same hs.log hname] at hx
    rw [voided_congr hd.events]
    exact hx
  exact h.carry (tables_append hsound.tables _ _ _)
    (fun row hrow => ⟨hrow.mem, fun hin => hrow.live (hvoid _ _ hin)⟩)
    (fun row hrow => ⟨hrow.mem, hrow.visible, fun hin => hrow.live (hvoid _ _ hin)⟩)
    (fun row hrow => ⟨hrow.mem, hrow.visible, fun hin => hrow.live (hvoid _ _ hin)⟩)
    (fun row hrow _ => hrow)

theorem Ready.restores {env : Env} {s s1 : Store} {p : Payload} (h : Ready env s s1 p) (ht : Restores s1 t) :
    Ready env s t p := by
  obtain ⟨_, hentities, -, hvoidEntities⟩ := ht.entities
  obtain ⟨_, haliases, -, hvoidAliases⟩ := ht.aliases
  obtain ⟨_, hnotes, -, hvoidNotes⟩ := ht.notes
  apply h.carry ht.wellFormed.tables
  · intro row hrow
    exact ⟨hentities ▸ List.mem_append_left _ hrow.mem, fun hin => hrow.live ((hvoidEntities row hrow.mem).mp hin)⟩
  · intro row hrow
    exact ⟨haliases ▸ List.mem_append_left _ hrow.mem, hrow.visible,
      fun hin => hrow.live ((hvoidAliases row hrow.mem).mp hin)⟩
  · intro row hrow
    exact ⟨hnotes ▸ List.mem_append_left _ hrow.mem, hrow.visible,
      fun hin => hrow.live ((hvoidNotes row hrow.mem).mp hin)⟩
  · exact ht.active

/-- The event of the draft stands in `t`, and no later event but undos does. -/
structure LastStanding (s t : Store) (e : Event) : Prop where
  mem : e ∈ t.events
  same : ∀ id ≤ s.nextEvent, id ∈ undone t ↔ id ∈ undone s
  later : ∃ later, t.events = s.events ++ e :: later ∧
    ∀ x ∈ later, s.nextEvent < x.eventId ∧ (x.op = .undo ∨ x.eventId ∈ undone t)

theorem Restores.lastStanding {s s1 : Store} {e : Event} (ht : Restores s1 t) (happ : Appends s s1 e)
    (hop : e.op ≠ .undo) (hnext : s1.nextEvent = s.nextEvent + 1) : LastStanding s t e := by
  obtain ⟨later, hevents, hlater⟩ := ht.events
  rw [happ.events, List.append_assoc, List.singleton_append] at hevents
  refine ⟨?_, fun id hid => ?_, later, hevents, fun x hx => ?_⟩
  · rw [hevents]
    exact List.mem_append_right _ List.mem_cons_self
  · rw [ht.standing id (by omega), happ.undone_same hop]
  · obtain ⟨hle, hgone⟩ := hlater x hx
    exact ⟨by omega, hgone⟩

theorem LastStanding.gone {s : Store} {e : Event} (h : LastStanding s t e) (hs : EventLog s)
    (he : e.eventId = s.nextEvent) : ∀ x ∈ t.events, e.eventId < x.eventId → x.op = .undo ∨ x.eventId ∈ undone t := by
  obtain ⟨later, hevents, hlater⟩ := h.later
  intro x hx hlt
  rw [hevents] at hx
  cases List.mem_append.mp hx with
  | inl hx =>
    have := hs.below x hx
    omega
  | inr hx =>
    cases List.mem_cons.mp hx with
    | inl hxe =>
      rw [hxe] at hlt
      omega
    | inr hx => exact (hlater x hx).2

/-- The store after the undo of the event of the draft. -/
theorem restores_back {c : Context} {s : Store} {x : Draft} (hs : WellFormed s)
    (hname : name ≠ .undo) (hd : d.Derived s) (hkeys : d.store.keys = s.keys)
    (ht : Restores (appendEvent name d.payload none d.store) t)
    (hlast : LastStanding s t ⟨s.nextEvent, name, some d.payload, none⟩)
    (hbody : undoBody c none d.payload.created d.payload.changes t = .ok x) (hsettled : Settled s t x) :
    Restores s (appendEvent .undo x.payload (some s.nextEvent) x.store) := by
  have happ := appends_appendEvent hd name none
  have hacts := undoBody_acts hbody
  have hx := hacts.derived ht.wellFormed.tables
  have happ' := appends_appendEvent hx .undo (some s.nextEvent)
  have hle : s.nextEvent + 1 ≤ t.nextEvent := by
    rw [← hd.nextEvent]
    exact ht.nextEvent
  have hvoid : ∀ {α : Type} (ids : Created → List α) (k : α),
      k ∈ voided ids (appendEvent .undo x.payload (some s.nextEvent) x.store) ↔
        k ∈ voided ids t ∨ k ∈ ids d.payload.created :=
    fun ids k => happ'.voided_undo ht.wellFormed.log rfl rfl hlast.mem rfl k
  have hundone := happ'.undone_undo rfl rfl
  have hback := undoBody_tables hbody
  obtain ⟨ws, hws, -, haliases⟩ := hback.aliases
  obtain ⟨later, hevents, hlater⟩ := hlast.later
  constructor
  · apply wellFormed_append ht.wellFormed hacts
    intro id hid
    cases hid
    exact hle
  · have hrows := Extends.rewind [] hd.entities hs.tables.entityIds ht.entities (List.nil_subset _)
      (happ.voided_same hs.log hname) (hvoid Created.entities)
    change Extends _ _ _ _ x.store.entities
    rw [hback.entities]
    exact hrows
  · have hrows := Extends.rewind ws hd.aliases hs.tables.aliasIds ht.aliases (fun k hk => hws ▸ hk)
      (happ.voided_same hs.log hname) (hvoid Created.aliases)
    change Extends _ _ _ _ x.store.aliases
    rw [haliases]
    exact hrows
  · have hrows := Extends.rewind [] hd.notes hs.tables.noteIds ht.notes (List.nil_subset _)
      (happ.voided_same hs.log hname) (hvoid Created.notes)
    change Extends _ _ _ _ x.store.notes
    rw [hback.notes]
    exact hrows
  · exact hsettled.kept
  · exact hsettled.mirrors.keys.trans (ht.keys.trans hkeys)
  · refine ⟨⟨s.nextEvent, name, some d.payload, none⟩ ::
      (later ++ [⟨t.nextEvent, .undo, some x.payload, some s.nextEvent⟩]), ?_, fun e he => ?_⟩
    · rw [happ'.events, hevents, List.append_assoc, List.cons_append]
    · cases List.mem_cons.mp he with
      | inl he =>
        rw [he]
        exact ⟨Nat.le_refl _, Or.inr ((hundone _).mpr (Or.inr rfl))⟩
      | inr he =>
        cases mem_snoc he with
        | inl he =>
          obtain ⟨hnew, hgone⟩ := hlater e he
          exact ⟨Nat.le_of_lt hnew, hgone.imp_right (fun hin => (hundone _).mpr (Or.inl hin))⟩
        | inr he =>
          rw [he]
          exact ⟨Nat.le_of_succ_le hle, Or.inl rfl⟩
  · change s.nextEvent ≤ x.store.nextEvent + 1
    rw [hx.nextEvent]
    omega
  · intro id hid
    rw [hundone, hlast.same id (Nat.le_of_lt hid)]
    exact ⟨fun h => h.resolve_right (Nat.ne_of_lt hid), Or.inl⟩

/-- An event is undone when everything after it has been. -/
theorem restores_undo {c : Context} {s : Store} (hs : WellFormed s)
    (hbelow : ∀ id ∈ voided Created.aliases s, id < s.nextAlias) (hname : name ≠ .undo ∧ hasInverse name = true)
    (hacts : Acts c.env (calmWrites s) { store := s } d) (ht : Restores (appendEvent name d.payload none d.store) t) :
    ∃ u, undo c s.nextEvent t = .ok u ∧ Restores s u := by
  have hd := hacts.derived hs.tables
  have hrecorded := hacts.recorded hs.tables hbelow
  have hready := (hrecorded.ready.append hs hd (hacts.sound (sound_start hs.tables)) hname.1).restores ht
  have hlast := ht.lastStanding (appends_appendEvent hd name none) hname.1 (congrArg Nat.succ hd.nextEvent)
  have hstanding : s.nextEvent ∉ undone t := by
    intro hin
    exact Nat.lt_irrefl _ (undone_below hs.log ((hlast.same _ (Nat.le_refl _)).mp hin))
  obtain ⟨x, hundo, hbody, hsettled⟩ :=
    undo_total hs.tables ht.wellFormed.log hready hlast.mem rfl hname hstanding (hlast.gone hs.log rfl)
  exact ⟨_, hundo, restores_back hs hname.1 hd hrecorded.keys ht hlast hbody hsettled⟩

/-! ## All events -/

/-- The operations that edit entities, aliases and notes. -/
def Op.isEdit : Op → Bool
  | .overrideKey _ _ _ _ => false
  | .undo _ => false
  | _ => true

/-- Edits that commit one after the other, with the ids of their events. An edit
that finds the holder of its platform id has no event and is not among them. -/
inductive Commits (env : Env) : Store → List Nat → Store → Prop
  | nil (s : Store) : Commits env s [] s
  | cons {s s' t : Store} {ids : List Nat} (c : Context) (op : Op) (r : Returned) (henv : c.env = env)
      (hedit : op.isEdit = true) (hcreates : ¬ Attaches c s op) (h : execute c s op = .ok (s', r))
      (hrest : Commits env s' ids t) : Commits env s (s.nextEvent :: ids) t

/-- An edit is a sequence of acts that writes no key. -/
theorem edit_acts {c : Context} {s s' : Store} {op : Op} {r : Returned} (hs : Tables s) (hedit : op.isEdit = true)
    (hcreates : ¬ Attaches c s op) (h : execute c s op = .ok (s', r)) :
    ∃ d name, (name ≠ .undo ∧ hasInverse name = true) ∧ Acts c.env (calmWrites s) { store := s } d ∧
      s' = appendEvent name d.payload none d.store := by
  cases execute_committed hs h with
  | plain hname hacts =>
    have hcalm := hacts.mono (v := plainWrites s) (w := calmWrites s) (fun _ _ _ => trivial)
      (fun _ _ _ hw => hw) (fun hk => hk)
    exact ⟨_, _, ⟨hname.1, hname.2.2⟩, hcalm, rfl⟩
  | merge hm => exact ⟨_, _, by decide, merge_acts (fun _ _ => trivial) hm, rfl⟩
  | overrideKey hacts => cases hedit
  | undo hu => cases hedit
  | attached ha => exact absurd ha hcreates

theorem Reachable.execute {c : Context} {s s' : Store} {op : Op} {r : Returned} (hs : Reachable s)
    (h : execute c s op = .ok (s', r)) : Reachable s' := by
  have hstep := hs.call c op
  rw [step, h] at hstep
  exact hstep

/-- The events of edits are undone, last first: no undo is refused, and what is
left is the store before. -/
theorem Commits.undo_all {env : Env} {s : Store} {ids : List Nat} (h : Commits env s ids t) (hs : Reachable s)
    {ctx : Nat → Context} (hctx : ∀ id, (ctx id).env = env) :
    t.events.map Event.eventId = s.events.map Event.eventId ++ ids ∧
    ∃ u, ids.reverse.foldlM (fun u id => undo (ctx id) id u) t = .ok u ∧ Restores s u := by
  induction h with
  | nil s => exact ⟨by simp, s, rfl, .refl hs.wellFormed⟩
  | @cons s s' t ids c op r henv hedit hcreates h hrest ih =>
    obtain ⟨hevents, u, hu, hrestores⟩ := ih (hs.execute h)
    have hw := hs.wellFormed
    obtain ⟨d, name, hname, hacts, rfl⟩ := edit_acts hw.tables hedit hcreates h
    have happ := appends_appendEvent (hacts.derived hw.tables) name none
    have hacts' : Acts (ctx s.nextEvent).env (calmWrites s) { store := s } d := by
      rw [hctx, ← henv]
      exact hacts
    obtain ⟨u', hu', hrestores'⟩ := restores_undo hw (voided_below hs) hname hacts' hrestores
    refine ⟨?_, u', ?_, hrestores'⟩
    · rw [hevents, happ.events]
      simp
    · rw [List.reverse_cons, List.foldlM_append, bind_ok]
      refine ⟨u, hu, ?_⟩
      rw [List.foldlM_cons, bind_ok]
      exact ⟨u', hu', rfl⟩

theorem canonicalMap_total {s : Store} (h : MergeInv s) : ∃ canon, canonicalMap (liveEntities s) = .ok canon := by
  apply mapM_total
  intro row hrow
  obtain ⟨k, hk, -⟩ := canonical_total h hrow
  exact ⟨_, by rw [hk]; rfl⟩

/-- Undo is an exact inverse, last in first out: the events of any edits of a
reachable store are undone without a refusal, and every reader gets the view of
that store. -/
theorem undo_inverse (env : Env) (s t : Store) (ids : List Nat) (hs : Reachable s) (h : Commits env s ids t)
    (ctx : Nat → Context) (hctx : ∀ id, (ctx id).env = env) :
    t.events.map Event.eventId = s.events.map Event.eventId ++ ids ∧
    ∃ u, ids.reverse.foldlM (fun u id => undo (ctx id) id u) t = .ok u ∧
      ∀ env' access platformNorm, ∃ view, resolvedView env' access platformNorm s = .ok view ∧
        resolvedView env' access platformNorm u = .ok view := by
  obtain ⟨hevents, u, hu, hrestores⟩ := h.undo_all hs hctx
  refine ⟨hevents, u, hu, fun env' access platformNorm => ?_⟩
  obtain ⟨canon, hcanon⟩ := canonicalMap_total (mergeInv_reachable hs)
  rw [hrestores.resolvedView_eq hs.wellFormed.log, resolvedView, hcanon]
  exact ⟨_, rfl, rfl⟩

/-- An entity with a name. -/
def namedEntity : Store := run (emptyScope 1 1 1)
  [(plainContext 1, .createEntity "Ann" .person), (plainContext 2, .addAlias 1 "ann" {})]

/-- The name is split off, and the new entity merged back. -/
def splitAndMerged : Store := run namedEntity
  [(plainContext 3, .split 1 [1] [] "Anna" none), (plainContext 4, .merge 1 3 false)]

theorem undo_inverse_split :
    (splitAndMerged.aliases.map Alias.entityId = [1, 3] ∧ splitAndMerged.events.map Event.eventId = [1, 2, 3, 4]) ∧
    ∃ u, [4, 3].foldlM (fun u id => undo (plainContext id) id u) splitAndMerged = .ok u ∧
      ∀ env access platformNorm, ∃ view, resolvedView env access platformNorm namedEntity = .ok view ∧
        resolvedView env access platformNorm u = .ok view := by
  refine ⟨by decide +kernel, (undo_inverse { unicode := plainUnicode } namedEntity splitAndMerged [3, 4]
    ((Reachable.empty 1 1 1).run _) ?_ plainContext (fun _ => rfl)).2⟩
  have hnot : ∀ c s, ¬ Attaches c s (.split 1 [1] [] "Anna" none) ∧ ¬ Attaches c s (.merge 1 3 false) := by
    intro c s
    constructor <;> rintro ⟨_, _, _, _, h, -⟩ <;> cases h
  have hmerge : Commits { unicode := plainUnicode }
    (run namedEntity [(plainContext 3, .split 1 [1] [] "Anna" none)]) [4]
      splitAndMerged :=
    .cons (plainContext 4) (.merge 1 3 false) (.event 4) rfl rfl (hnot _ _).2 (by decide +kernel) (.nil splitAndMerged)
  exact .cons (plainContext 3) (.split 1 [1] [] "Anna" none) (.entity 3) rfl rfl (hnot _ _).1 (by decide +kernel) hmerge

end EntityStore
