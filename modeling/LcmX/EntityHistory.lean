import LcmX.EntityRuns

/-!
# What an event does to the history

An undo makes its target undone and the rows the target created void. Any other
event leaves both as they were.
-/
namespace EntityStore

open ChangeLog Fallible Draft

variable {s s' : Store} {α : Type} {e : Event}

theorem mem_undone {id : Nat} :
    id ∈ undone s ↔ ∃ e ∈ s.events, e.op = .undo ∧ e.targetEventId = some id := by
  simp only [undone, List.mem_filterMap]
  constructor
  · rintro ⟨e, he, h⟩
    split at h
    · rename_i hop
      exact ⟨e, he, hop, h⟩
    · cases h
  · rintro ⟨e, he, hop, ht⟩
    exact ⟨e, he, by rw [if_pos hop, ht]⟩

theorem mem_voided {ids : Created → List α} {x : α} : x ∈ voided ids s ↔
    ∃ e ∈ s.events, e.eventId ∈ undone s ∧ ∃ p, e.payload = some p ∧ x ∈ ids p.created := by
  simp only [voided, List.mem_flatMap]
  constructor
  · rintro ⟨e, he, h⟩
    split at h
    · rename_i hu
      cases hp : e.payload with
      | none =>
        rw [hp] at h
        cases h
      | some p =>
        rw [hp] at h
        exact ⟨e, he, hu, p, hp, h⟩
    · cases h
  · rintro ⟨e, he, hu, p, hp, hx⟩
    exact ⟨e, he, by rw [if_pos hu, hp]; exact hx⟩

theorem undone_congr {t : Store} (h : s.events = t.events) : undone s = undone t := by
  rw [undone, undone, h]

theorem voided_congr {ids : Created → List α} {t : Store} (h : s.events = t.events) :
    voided ids s = voided ids t := by
  rw [voided, voided, undone_congr h, h]

theorem EventLog.unique (h : EventLog s) {a b : Event} (ha : a ∈ s.events) (hb : b ∈ s.events)
    (hid : a.eventId = b.eventId) : a = b := by
  have hnodup : (s.events.map Event.eventId).Nodup :=
    List.pairwise_map.mpr (h.order.imp (fun hlt => Nat.ne_of_lt hlt))
  exact List.inj_on_of_nodup_map hnodup ha hb hid

/-- The store with one more event, whatever its tables. -/
structure Appends (s s' : Store) (e : Event) : Prop where
  events : s'.events = s.events ++ [e]
  eventId : e.eventId = s.nextEvent

theorem appends_appendEvent {d : Draft} (hd : d.Derived s) (op : OpName) (target : Option Nat) :
    Appends s (appendEvent op d.payload target d.store) ⟨s.nextEvent, op, some d.payload, target⟩ where
  events := by
    rw [← hd.events, ← hd.nextEvent]
    rfl
  eventId := rfl

theorem Appends.mem (h : Appends s s' e) {x : Event} : x ∈ s'.events ↔ x ∈ s.events ∨ x = e := by
  rw [h.events, List.mem_append, List.mem_singleton]

theorem undone_below (h : EventLog s) {id : Nat} (hid : id ∈ undone s) : id < s.nextEvent := by
  obtain ⟨e, he, -, ht⟩ := mem_undone.mp hid
  exact h.targets e he id ht

theorem Appends.undone_same (h : Appends s s' e) (hop : e.op ≠ .undo) (id : Nat) :
    id ∈ undone s' ↔ id ∈ undone s := by
  rw [mem_undone, mem_undone]
  constructor
  · rintro ⟨x, hx, hxop, ht⟩
    rcases h.mem.mp hx with hx | rfl
    · exact ⟨x, hx, hxop, ht⟩
    · exact absurd hxop hop
  · rintro ⟨x, hx, hxop, ht⟩
    exact ⟨x, h.mem.mpr (Or.inl hx), hxop, ht⟩

theorem Appends.undone_undo {target : Nat} (h : Appends s s' e) (hop : e.op = .undo)
    (ht : e.targetEventId = some target) (id : Nat) : id ∈ undone s' ↔ id ∈ undone s ∨ id = target := by
  rw [mem_undone, mem_undone]
  constructor
  · rintro ⟨x, hx, hxop, hxt⟩
    rcases h.mem.mp hx with hx | rfl
    · exact Or.inl ⟨x, hx, hxop, hxt⟩
    · rw [ht] at hxt
      exact Or.inr (Option.some.inj hxt).symm
  · rintro (⟨x, hx, hxop, hxt⟩ | rfl)
    · exact ⟨x, h.mem.mpr (Or.inl hx), hxop, hxt⟩
    · exact ⟨e, h.mem.mpr (Or.inr rfl), hop, ht⟩

theorem Appends.voided_same {ids : Created → List α} (hlog : EventLog s)
    (h : Appends s s' e) (hop : e.op ≠ .undo) (x : α) : x ∈ voided ids s' ↔ x ∈ voided ids s := by
  rw [mem_voided, mem_voided]
  constructor
  · rintro ⟨y, hy, hu, p, hp, hx⟩
    rw [h.undone_same hop] at hu
    rcases h.mem.mp hy with hy | rfl
    · exact ⟨y, hy, hu, p, hp, hx⟩
    · have := undone_below hlog hu
      rw [h.eventId] at this
      omega
  · rintro ⟨y, hy, hu, p, hp, hx⟩
    exact ⟨y, h.mem.mpr (Or.inl hy), (h.undone_same hop _).mpr hu, p, hp, hx⟩

/-- The rows its target made become void. -/
theorem Appends.voided_undo {ids : Created → List α} {target : Event} {p : Payload}
    (hlog : EventLog s) (h : Appends s s' e) (hop : e.op = .undo) (ht : e.targetEventId = some target.eventId)
    (hmem : target ∈ s.events) (hp : target.payload = some p) (x : α) :
    x ∈ voided ids s' ↔ x ∈ voided ids s ∨ x ∈ ids p.created := by
  rw [mem_voided, mem_voided]
  constructor
  · rintro ⟨y, hy, hu, q, hq, hx⟩
    rw [h.undone_undo hop ht] at hu
    rcases h.mem.mp hy with hy | rfl
    · rcases hu with hu | hid
      · exact Or.inl ⟨y, hy, hu, q, hq, hx⟩
      · have hyt : y = target := hlog.unique hy hmem hid
        rw [hyt, hp] at hq
        cases hq
        exact Or.inr hx
    · have hnext := h.eventId
      rcases hu with hu | hid
      · have := undone_below hlog hu
        omega
      · have := hlog.below target hmem
        omega
  · rintro (⟨y, hy, hu, q, hq, hx⟩ | hx)
    · exact ⟨y, h.mem.mpr (Or.inl hy), (h.undone_undo hop ht _).mpr (Or.inl hu), q, hq, hx⟩
    · exact ⟨target, h.mem.mpr (Or.inl hmem), (h.undone_undo hop ht _).mpr (Or.inr rfl), p, hp, hx⟩

end EntityStore
