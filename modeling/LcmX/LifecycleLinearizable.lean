import LcmX.LifecycleBind
import Mathlib

/-!
# Binding a session is linearizable

A bind that returns found its row bound, or wrote once: the plan of the row as it
stood at the write.
-/
namespace Lifecycle

/-! ## One process among others -/

/-- The steps of process `i` among the events change nothing. -/
def Quiet (i : Nat) : System → List Event → Prop
  | _, [] => True
  | s, e :: events => (∀ now, e = .step i now → (s.next e).db = s.db) ∧ Quiet i (s.next e) events

theorem quiet_append {i : Nat} {a b : List Event} : ∀ {s : System}, Quiet i s (a ++ b) ↔
    Quiet i s a ∧ Quiet i (s.run a) b := by
  induction a with
  | nil =>
    intro s
    simp [Quiet]
  | cons e a ih =>
    intro s
    rw [List.cons_append, Quiet, Quiet, ih, System.run_cons, and_assoc]

/-- Process `i` goes on with the call that it is in. -/
def Continues (i : Nat) (events : List Event) : Prop := ∀ e ∈ events, ∀ request, e ≠ .start i request

theorem next_other {i : Nat} {s : System} {e : Event} (hstart : ∀ request, e ≠ .start i request)
    (hstep : ∀ now, e ≠ .step i now) : (s.next e).processes i = s.processes i := by
  cases e with
  | start j request =>
    have hij : i ≠ j := fun he => hstart request (he ▸ rfl)
    simp only [System.next]
    split
    · exact Function.update_of_ne hij ..
    · rfl
  | step j now =>
    have hij : i ≠ j := fun he => hstep now (he ▸ rfl)
    exact Function.update_of_ne hij ..

/-- A call that has moved on has taken a first step. -/
theorem first_step {i : Nat} {events : List Event} : ∀ {s : System}, Continues i events →
    ((s.run events).processes i).call ≠ (s.processes i).call → ∃ x now y, events = x ++ .step i now :: y ∧ Quiet i s x ∧
      ((s.run x).processes i).call = (s.processes i).call := by
  induction events with
  | nil => exact fun _ hne => absurd rfl hne
  | cons e events ih =>
    intro s hcont hne
    by_cases he : ∃ now, e = .step i now
    · obtain ⟨now, rfl⟩ := he
      exact ⟨[], now, events, rfl, trivial, rfl⟩
    · have hother : ∀ now, e ≠ .step i now := fun now h => he ⟨now, h⟩
      have hsame := next_other (s := s) (hcont e List.mem_cons_self) hother
      obtain ⟨x, now, y, rfl, hquiet, hcall⟩ := ih (s := s.next e) (fun e' h' => hcont e' (List.mem_cons_of_mem _ h'))
        (by rw [hsame]; exact hne)
      exact ⟨e :: x, now, y, rfl, ⟨fun now h => absurd h (hother now), hquiet⟩, by rw [System.run_cons, hcall, hsame]⟩

theorem finished_stays {i : Nat} {events : List Event} : ∀ {s : System}, Continues i events →
    (s.processes i).call.finished = true →
      ((s.run events).processes i).call = (s.processes i).call ∧ Quiet i s events := by
  induction events with
  | nil => exact fun _ _ => ⟨rfl, trivial⟩
  | cons e events ih =>
    intro s hcont hfin
    have hnext : ((s.next e).processes i).call = (s.processes i).call ∧ ∀ now, e = .step i now →
        (s.next e).db = s.db := by
      by_cases he : ∃ now, e = .step i now
      · obtain ⟨now, rfl⟩ := he
        have hstep : ∀ legacy, (s.processes i).call.step now legacy s.db = ((s.processes i).call, s.db) := by
          intro legacy
          cases hc : (s.processes i).call with
          | returned state => rfl
          | raised => rfl
          | _ => simp [hc, Call.finished] at hfin
        constructor
        · simp only [System.next, hstep, Function.update_self]
        · intro _ _
          simp only [System.next, hstep]
      · rw [next_other (hcont e List.mem_cons_self) fun now h => he ⟨now, h⟩]
        exact ⟨rfl, fun now h => absurd ⟨now, h⟩ he⟩
    obtain ⟨hend, hquiet⟩ := ih (s := s.next e) (fun e' h' => hcont e' (List.mem_cons_of_mem _ h'))
      (by rw [hnext.1]; exact hfin)
    exact ⟨hend.trans hnext.1, hnext.2, hquiet⟩

theorem Continues.append {i : Nat} {a b : List Event} (h : Continues i (a ++ b)) : Continues i a ∧ Continues i b :=
  ⟨fun e he => h e (List.mem_append_left _ he), fun e he => h e (List.mem_append_right _ he)⟩

/-- A required fetch returns the state of its conversation. -/
theorem fetch_outcome {i : Nat} {s : System} {events : List Event} {c : String} {state : Option LifecycleState}
    (hcont : Continues i events) (hcall : (s.processes i).call = .fetch c true)
    (hret : ((s.run events).processes i).call = .returned state) :
    Quiet i s events ∧ ∃ st, state = some st ∧ st.conversationId = c := by
  obtain ⟨x, now, y, rfl, hquiet, hx⟩ := first_step hcont (by rw [hret, hcall]; simp)
  rw [hcall] at hx
  obtain ⟨-, hy⟩ := hcont.append
  have hy' : Continues i y := fun e he => hy e (List.mem_cons_of_mem _ he)
  rw [System.run_append, System.run_cons] at hret
  set s₁ := s.run x
  have hstep : (s₁.next (.step i now)).db = s₁.db ∧ ((s₁.next (.step i now)).processes i).call =
      if getByConversation s₁.db.lifecycle c = none then .raised
      else .returned (getByConversation s₁.db.lifecycle c) := by
    simp only [System.next, hx, Call.step, true_and, Function.update_self]
    split <;> exact ⟨rfl, rfl⟩
  have hfin : ((s₁.next (.step i now)).processes i).call.finished = true := by
    rw [hstep.2]
    split <;> rfl
  obtain ⟨hend, hrest⟩ := finished_stays hy' hfin
  constructor
  · rw [quiet_append]
    exact ⟨hquiet, fun _ _ => hstep.1, hrest⟩
  · rw [hend, hstep.2] at hret
    cases hget : getByConversation s₁.db.lifecycle c with
    | none => simp [hget] at hret
    | some st =>
      rw [hget, if_neg (by simp)] at hret
      cases hret
      refine ⟨st, rfl, ?_⟩
      rw [getByConversation] at hget
      split at hget
      · cases hget
      · obtain ⟨row, -, rfl⟩ := Option.map_eq_some_iff.mp hget
        rfl

/-! ## The outcome of a bind -/

/-- Where the decision that process `i` writes after the events `a` comes from. -/
inductive Basis (i : Nat) (session c : String) (s : System) (a : List Event) : Prop where
  /-- A read after `a₁`: the row still has what the guard compares, and no finalize or reset came between. -/
  | read {attempts : Nat} {seen row : Row} (a₁ a₂ : List Event) (hsplit : a = a₁ ++ a₂)
      (hcall : ((s.run a).processes i).call = .bindWrite session attempts (some seen) c)
      (hseen : (s.run a₁).db.lifecycle.get c = some seen) (hrow : (s.run a).db.lifecycle.get c = some row)
      (hguard : sameGuard seen row = true)
      (hmarks : (∀ x y, a₂ = x ++ y → (s.run (a₁ ++ x)).db.lifecycle.get c ≠ none) →
        ∀ x y, a₂ = x ++ y → ∀ mid, (s.run (a₁ ++ x)).db.lifecycle.get c = some mid → SameMarks seen mid)
  /-- There is no row to write over. -/
  | absent (hnone : (s.run a).db.lifecycle.get c = none)
  /-- The read is in the transaction of the write. -/
  | locked (hcall : ((s.run a).processes i).call = .bindTransaction session c)

/-- At some point of the events the conversation has one row and it is bound to the session. -/
def BoundDuring (session c : String) (s : System) (events : List Event) : Prop :=
  ∃ a b row, events = a ++ b ∧ (s.run a).db.lifecycle.get c = some row ∧ row.currentSessionId = some session ∧
    ((s.run a).db.lifecycle.rows.filter fun p => p.1 = c) = [(c, row)]

/-- Process `i` writes once, and that write is the bind plan of the row as it then stands. -/
def WroteOnce (i : Nat) (session c : String) (s : System) (events : List Event) : Prop :=
  ∃ a now b, events = a ++ .step i now :: b ∧ Quiet i s a ∧ Quiet i (s.run (a ++ [.step i now])) b ∧
    (executeBindPlan ((s.run a).db.lifecycle.get c) session c now (s.run a).db.lifecycle).1 = true ∧
    (s.run (a ++ [.step i now])).db = { (s.run a).db with
      lifecycle := (executeBindPlan ((s.run a).db.lifecycle.get c) session c now (s.run a).db.lifecycle).2 } ∧
    Basis i session c s a

def BindOutcome (i : Nat) (session c : String) (s : System) (events : List Event) : Prop :=
  BoundDuring session c s events ∧ (Quiet i s events ∨ WroteOnce i session c s events)

variable {t : Rows} {session : String} {now : Int}

theorem rows_filter_key {c : String} {row : Row} (h : t.get c = some row) :
    (t.rows.filter fun p => p.1 = c) = [(c, row)] := by
  have hmem := KeyedTable.get_eq_some.mp h
  obtain ⟨rows, hunique⟩ := t
  simp only at hmem ⊢
  clear h
  induction rows with
  | nil => cases hmem
  | cons p rows ih =>
    rw [List.map_cons, List.nodup_cons] at hunique
    cases List.mem_cons.mp hmem with
    | inl he =>
      subst he
      have hnone : rows.filter (fun p => decide (p.1 = c)) = [] := by
        rw [List.filter_eq_nil_iff]
        intro q hq
        simpa using fun he => hunique.1 (List.mem_map.mpr ⟨q, hq, he⟩)
      simp [hnone]
    | inr hin =>
      have hne : p.1 ≠ c := fun he => hunique.1 (List.mem_map.mpr ⟨_, hin, he.symm⟩)
      simp [hne, ih hunique.2 hin]

theorem boundDuring_of_get {c : String} {s : System} {a b : List Event} {row : Row}
    (hrow : (s.run a).db.lifecycle.get c = some row) (hbound : row.currentSessionId = some session) :
    BoundDuring session c s (a ++ b) :=
  ⟨a, b, row, rfl, hrow, hbound, rows_filter_key hrow⟩

/-- An outcome of the rest of a run is one of the whole run when the process was quiet before. -/
theorem BindOutcome.prepend {i : Nat} {c : String} {s : System} {x events : List Event}
    (hquiet : Quiet i s x) (h : BindOutcome i session c (s.run x) events) :
      BindOutcome i session c s (x ++ events) := by
  obtain ⟨⟨a, b, row, rfl, hrow, hbound, hone⟩, hdone⟩ := h
  constructor
  · rw [← System.run_append] at hrow hone
    exact ⟨x ++ a, b, row, (List.append_assoc ..).symm, hrow, hbound, hone⟩
  · cases hdone with
    | inl hall => exact .inl (quiet_append.mpr ⟨hquiet, hall⟩)
    | inr hwrote =>
      right
      obtain ⟨a', now, b', hsplit, hqa, hqb, hone', hdb, hbasis⟩ := hwrote
      refine ⟨x ++ a', now, b', by rw [hsplit, List.append_assoc], quiet_append.mpr ⟨hquiet, hqa⟩, ?_, ?_, ?_, ?_⟩
      · rw [List.append_assoc, System.run_append]
        exact hqb
      · rw [System.run_append]
        exact hone'
      · simp only [List.append_assoc, System.run_append s x]
        exact hdb
      · cases hbasis with
        | @read attempts seen row' a₁ a₂ hs hcall hseen hrow' hguard hmarks =>
          refine .read (x ++ a₁) a₂ (by rw [hs, List.append_assoc]) (by rw [System.run_append]; exact hcall)
            (by rw [System.run_append]; exact hseen) (by rw [System.run_append]; exact hrow') hguard ?_
          simp only [List.append_assoc, System.run_append s x]
          exact hmarks
        | absent hnone => exact .absent (by rw [System.run_append]; exact hnone)
        | locked hcall => exact .locked (by rw [System.run_append]; exact hcall)

/-- What a bind may rely on: its own call goes on, times are distinct and session ids are not empty. -/
structure Interleaved (i : Nat) (s : System) (events : List Event) : Prop where
  continues : Continues i events
  times : DistinctTimes s events
  named : Named s
  requests : ∀ j request, .start j request ∈ events → request.call.binds ≠ some ""

theorem Interleaved.run {i : Nat} {a : List Event} : ∀ {s : System} {b : List Event},
    Interleaved i s (a ++ b) → Interleaved i (s.run a) b := by
  induction a with
  | nil => exact fun h => h
  | cons e a ih =>
    intro s b h
    apply ih
    constructor
    · exact fun e' he' => h.continues e' (List.mem_cons_of_mem _ he')
    · exact h.times.next
    · exact h.named.next fun j request he => h.requests j request (he ▸ List.mem_cons_self)
    · exact fun j request hin => h.requests j request (List.mem_cons_of_mem _ hin)

/-- The rest of a call that has just taken the step of a split run. -/
theorem Interleaved.rest {i : Nat} {s : System} {x y : List Event} (h : Interleaved i s (x ++ .step i now :: y)) :
    Interleaved i ((s.run x).next (.step i now)) y := by
  have happ : x ++ Event.step i now :: y = (x ++ [.step i now]) ++ y := by simp
  rw [happ] at h
  have hrun := h.run
  rwa [System.run_append] at hrun

theorem executeBindPlan_self (t : Rows) (session c : String) (now : Int) :
    (executeBindPlan (t.get c) session c now t).1 = true := by
  cases hrow : t.get c with
  | none => simp [executeBindPlan, hrow]
  | some row => simp [executeBindPlan, KeyedTable.matches?, hrow, sameGuard]

theorem executeBindPlan_get (t : Rows) (session c : String) (now : Int) :
    ∃ row, (executeBindPlan (t.get c) session c now t).2.get c = some row ∧ row.currentSessionId = some session := by
  cases hrow : t.get c with
  | none => exact ⟨firstRow session now, by simp [executeBindPlan, KeyedTable.get_insert, hrow], rfl⟩
  | some row =>
    have hguard : sameGuard row row = true := by simp [sameGuard]
    refine ⟨boundRow row session now row, ?_, rfl⟩
    simp [executeBindPlan, KeyedTable.get_updateWhere, hrow, hguard]

/-- The write of a bind, when the rest of the call is quiet. -/
theorem BindOutcome.of_write {i : Nat} {c : String} {s : System} {x y : List Event} (hx : Quiet i s x)
    (hdb : ((s.run x).next (.step i now)).db = { (s.run x).db with
      lifecycle := (executeBindPlan ((s.run x).db.lifecycle.get c) session c now (s.run x).db.lifecycle).2 })
    (hbasis : Basis i session c s x) (hquiet : Quiet i ((s.run x).next (.step i now)) y) :
    BindOutcome i session c s (x ++ .step i now :: y) := by
  have happ : s.run (x ++ [.step i now]) = (s.run x).next (.step i now) := by
    rw [System.run_append]
    rfl
  constructor
  · obtain ⟨row, hrow, hbound⟩ := executeBindPlan_get (s.run x).db.lifecycle session c now
    have hrow' : (s.run (x ++ [.step i now])).db.lifecycle.get c = some row := by
      rw [happ, hdb]
      exact hrow
    have hsplit : x ++ Event.step i now :: y = (x ++ [.step i now]) ++ y := by simp
    rw [hsplit]
    exact boundDuring_of_get hrow' hbound
  · right
    refine ⟨x, now, y, rfl, hx, ?_, executeBindPlan_self _ _ _ _, ?_, hbasis⟩
    · rw [happ]
      exact hquiet
    · rw [happ]
      exact hdb

/-- A bind in one transaction returns what it bound. -/
theorem transaction_outcome {i : Nat} {s : System} {events : List Event} {c : String} {state : Option LifecycleState}
    (hcall : (s.processes i).call = .bindTransaction session c) (hcont : Continues i events)
    (hret : ((s.run events).processes i).call = .returned state) :
    ∃ st, state = some st ∧ st.conversationId = c ∧ BindOutcome i session c s events := by
  obtain ⟨x, now, y, rfl, hquiet, hx⟩ := first_step hcont (by rw [hret, hcall]; simp)
  rw [hcall] at hx
  have hy : Continues i y := fun e he => (hcont.append).2 e (List.mem_cons_of_mem _ he)
  rw [System.run_append, System.run_cons] at hret
  cases hget : getByConversation (bindTransactionRows session c now (s.run x).db.lifecycle) c with
  | none =>
    have hraised : (((s.run x).next (.step i now)).processes i).call = .raised := by
      simp only [System.next, hx, Call.step, hget, Function.update_self]
    rw [(finished_stays hy (by rw [hraised]; rfl)).1, hraised] at hret
    cases hret
  | some st =>
    have hreturned : (((s.run x).next (.step i now)).processes i).call = .returned (some st) := by
      simp only [System.next, hx, Call.step, hget, Function.update_self]
    have hdb : ((s.run x).next (.step i now)).db =
        { (s.run x).db with lifecycle := bindTransactionRows session c now (s.run x).db.lifecycle } := by
      simp only [System.next, hx, Call.step, hget]
    obtain ⟨hend, hrest⟩ := finished_stays hy (by rw [hreturned]; rfl)
    rw [hend, hreturned] at hret
    cases hret
    have hc : c ≠ "" := by
      intro he
      simp [getByConversation, he] at hget
    have hst : st.conversationId = c := by
      rw [getByConversation, if_neg hc] at hget
      obtain ⟨row, -, rfl⟩ := Option.map_eq_some_iff.mp hget
      rfl
    refine ⟨st, rfl, hst, ?_⟩
    have hrows : bindTransactionRows session c now (s.run x).db.lifecycle =
        if ((s.run x).db.lifecycle.get c).any (boundTo session) then (s.run x).db.lifecycle
        else (executeBindPlan ((s.run x).db.lifecycle.get c) session c now (s.run x).db.lifecycle).2 := by
      simp only [bindTransactionRows, getByConversation_row _ hc]
    by_cases hbound : ((s.run x).db.lifecycle.get c).any (boundTo session) = true
    · rw [hrows, if_pos hbound] at hdb
      obtain ⟨row, hrow, hto⟩ := (Option.any_eq_true _ _).mp hbound
      constructor
      · exact boundDuring_of_get hrow (by simpa [boundTo] using hto)
      · exact .inl (quiet_append.mpr ⟨hquiet, fun _ _ => hdb, hrest⟩)
    · rw [hrows, if_neg hbound] at hdb
      exact .of_write hquiet hdb (.locked hx) hrest

theorem bindLookup_some {conversation : String} {st : LifecycleState}
    (h : bindLookup t session conversation = some st) :
    t.get st.conversationId = some st.row ∧ bindResolved t session conversation = st.conversationId := by
  unfold bindResolved
  rw [h]
  unfold bindLookup at h
  split
  · next hc =>
    rw [if_pos hc, getByConversation, if_neg hc] at h
    obtain ⟨row, hrow, rfl⟩ := Option.map_eq_some_iff.mp h
    exact ⟨hrow, rfl⟩
  · next hc =>
    rw [if_neg hc, getBySession] at h
    refine ⟨?_, rfl⟩
    split at h
    · cases h
    · obtain ⟨p, hp, rfl⟩ := Option.map_eq_some_iff.mp h
      have hin := List.mem_mergeSort.mp (List.mem_of_mem_head? hp)
      exact KeyedTable.get_eq_some.mpr (List.mem_filter.mp hin).1

/-- A guarded write that lands is the plan of the row it lands on. -/
theorem executeBindPlan_fresh {seen row : Row} {c : String} (hrow : t.get c = some row)
    (hguard : sameGuard seen row = true) (heq : boundRow seen session now row = boundRow row session now row) :
    (executeBindPlan (some seen) session c now t).2 = (executeBindPlan (t.get c) session c now t).2 := by
  have hself : sameGuard row row = true := by simp [sameGuard]
  rw [hrow]
  simp only [executeBindPlan, KeyedTable.updateWhere]
  apply KeyedTable.modify_congr
  intro r hr
  rw [hrow] at hr
  cases hr
  rw [if_pos hguard, if_pos hself, heq]

/-- What one attempt leads to: the write that ends the call, or a failed write after which it goes on. -/
theorem bindWrite_step {i : Nat} {s : System} {c : String} {attempts : Nat} {existing : Option Row} (now : Int)
    (hcall : (s.processes i).call = .bindWrite session attempts existing c) :
    ((executeBindPlan existing session c now s.db.lifecycle).1 = true ∧
      (s.next (.step i now)).db = { s.db with lifecycle := (executeBindPlan existing session c now s.db.lifecycle).2 } ∧
      ((s.next (.step i now)).processes i).call = .fetch c true) ∨
    ((s.next (.step i now)).db = s.db ∧
      (((s.next (.step i now)).processes i).call = .bindTransaction session c ∨
        ∃ n, ((s.next (.step i now)).processes i).call = .bindRead session n c)) := by
  cases hwrote : (executeBindPlan existing session c now s.db.lifecycle).1 with
  | true =>
    left
    simp only [System.next, hcall, Call.step, hwrote, if_true, Function.update_self, and_self]
  | false =>
    right
    have hsame : (executeBindPlan existing session c now s.db.lifecycle).2 = s.db.lifecycle := by
      cases existing with
      | some seen => exact KeyedTable.updateWhere_of_not_matches hwrote
      | none =>
        apply KeyedTable.insert_of_some
        rw [← Option.isSome_iff_ne_none]
        simpa [executeBindPlan] using hwrote
    simp only [System.next, hcall, Call.step, hwrote, Bool.false_eq_true, if_false, hsame, Function.update_self]
    split
    · exact ⟨rfl, .inl rfl⟩
    · exact ⟨rfl, .inr ⟨_, rfl⟩⟩

/-- The outcome of an attempt whose guarded write lands. -/
theorem BindOutcome.of_attempt {i : Nat} {s : System} {c : String} {attempts : Nat} {existing : Option Row}
    {x y z : List Event} {t : Int} {state : Option LifecycleState}
    (hinter : Interleaved i s (x ++ .step i t :: (y ++ .step i now :: z)))
    (hx : Quiet i s x) (hread : ((s.run x).next (.step i t)).db = (s.run x).db)
    (hy : Quiet i ((s.run x).next (.step i t)) y)
    (hseen : ∀ seen, existing = some seen → (s.run x).db.lifecycle.get c = some seen ∧
      seen.currentSessionId ≠ some session)
    (hcall : ((s.run (x ++ .step i t :: y)).processes i).call = .bindWrite session attempts existing c)
    (hwrote : (executeBindPlan existing session c now (s.run (x ++ .step i t :: y)).db.lifecycle).1 = true)
    (hdb : ((s.run (x ++ .step i t :: y)).next (.step i now)).db = { (s.run (x ++ .step i t :: y)).db with
      lifecycle := (executeBindPlan existing session c now (s.run (x ++ .step i t :: y)).db.lifecycle).2 })
    (hfetch : (((s.run (x ++ .step i t :: y)).next (.step i now)).processes i).call = .fetch c true)
    (hret : ((((s.run (x ++ .step i t :: y)).next (.step i now)).run z).processes i).call = .returned state) :
    ∃ st, state = some st ∧ st.conversationId = c ∧
      BindOutcome i session c s (x ++ .step i t :: (y ++ .step i now :: z)) := by
  have hquiet : Quiet i s (x ++ .step i t :: y) := quiet_append.mpr ⟨hx, fun _ _ => hread, hy⟩
  have hsplit : x ++ Event.step i t :: (y ++ .step i now :: z) = (x ++ .step i t :: y) ++ .step i now :: z := by simp
  rw [hsplit] at hinter ⊢
  obtain ⟨hz, st, hst, hconv⟩ := fetch_outcome hinter.rest.continues hfetch hret
  refine ⟨st, hst, hconv, ?_⟩
  cases existing with
  | none =>
    have hnone : (s.run (x ++ .step i t :: y)).db.lifecycle.get c = none := by
      simpa [executeBindPlan] using hwrote
    apply BindOutcome.of_write hquiet _ (.absent hnone) hz
    rw [hdb, hnone]
  | some seen =>
    obtain ⟨hget, hother⟩ := hseen seen rfl
    obtain ⟨row, hrow, hguard⟩ := (Option.any_eq_true _ _).mp hwrote
    rw [List.append_assoc] at hinter
    have hinter' := hinter.run
    have hunused : Unused seen ((Event.step i t :: y).filterMap Event.time) := by
      intro u hu
      apply hinter'.times.fresh u _ c seen hget
      rw [List.filterMap_append]
      exact List.mem_append_left _ hu
    have hkept : RolloverKept seen ((s.run (x ++ .step i t :: y)).db.lifecycle.get c) := by
      rw [System.run_append]
      apply RolloverKept.run _ hunused
      rw [hget]
      rintro _ ⟨⟩ _ _
      rfl
    have hcols := hguard
    simp only [sameGuard, decide_eq_true_eq] at hcols
    have heq := boundRow_eq now hguard hother (hinter'.named.rows c seen hget)
      fun hnone => hkept row hrow hcols.2.2.2.1 (hcols.1.trans hnone)
    apply BindOutcome.of_write hquiet _ _ hz
    · rw [hdb, executeBindPlan_fresh hrow hguard heq]
    · refine .read x (.step i t :: y) rfl hcall hget hrow hguard ?_
      intro hthere a b hab mid hmid
      have hend : ((s.run (x ++ a)).run b).db.lifecycle.get c = some row := by
        rw [← System.run_append, List.append_assoc, ← hab]
        exact hrow
      apply sameMarks_of_run hmid hend ⟨hcols.2.2.2.1, hcols.2.2.2.2⟩
      · intro u hu
        apply hunused u
        rw [hab, List.filterMap_append]
        exact List.mem_append_right _ hu
      · intro a' b' hb
        rw [← System.run_append, List.append_assoc]
        exact hthere (a ++ a') b' (by rw [hab, hb, List.append_assoc])

theorem bindRead_step {i : Nat} {s : System} {conversation : String} {attempts : Nat} (t : Int)
    (hcall : (s.processes i).call = .bindRead session attempts conversation) :
    (s.next (.step i t)).db = s.db ∧ ((s.next (.step i t)).processes i).call =
      if (bindLookup s.db.lifecycle session conversation).any (fun st => boundTo session st.row) then
        .returned (bindLookup s.db.lifecycle session conversation)
      else .bindWrite session attempts ((bindLookup s.db.lifecycle session conversation).map LifecycleState.row)
        (bindResolved s.db.lifecycle session conversation) := by
  simp only [System.next, hcall, Call.step, Function.update_self]
  split <;> exact ⟨rfl, rfl⟩

/-- What a bind has seen of a row that is not bound yet. -/
theorem seen_of_bindLookup {conversation : String}
    (hbound : ¬ (bindLookup t session conversation).any (fun st => boundTo session st.row) = true) :
    ∀ seen, (bindLookup t session conversation).map LifecycleState.row = some seen →
      t.get (bindResolved t session conversation) = some seen ∧ seen.currentSessionId ≠ some session := by
  intro seen hsome
  obtain ⟨st, hst, rfl⟩ := Option.map_eq_some_iff.mp hsome
  obtain ⟨hget, hresolved⟩ := bindLookup_some hst
  rw [hst] at hbound
  exact ⟨by rw [hresolved]; exact hget, by simpa [boundTo] using hbound⟩

/-- A bind that reads its row bound returns it, and writes nothing. -/
theorem BindOutcome.of_bound {i : Nat} {s : System} {conversation : String} {x rest : List Event} {t : Int}
    {state : Option LifecycleState} (hx : Quiet i s x) (hread : ((s.run x).next (.step i t)).db = (s.run x).db)
    (hrest : Continues i rest)
    (hbound : (bindLookup (s.run x).db.lifecycle session conversation).any (fun st => boundTo session st.row) = true)
    (hafter : (((s.run x).next (.step i t)).processes i).call =
      .returned (bindLookup (s.run x).db.lifecycle session conversation))
    (hret : ((((s.run x).next (.step i t)).run rest).processes i).call = .returned state) :
    ∃ st, state = some st ∧ (conversation ≠ "" → st.conversationId = conversation) ∧
      BindOutcome i session st.conversationId s (x ++ .step i t :: rest) := by
  obtain ⟨hend, hquiet⟩ := finished_stays hrest (by rw [hafter]; rfl)
  rw [hend, hafter] at hret
  obtain ⟨st, hst, hto⟩ := (Option.any_eq_true _ _).mp hbound
  obtain ⟨hget, hresolved⟩ := bindLookup_some hst
  cases hret
  refine ⟨st, hst, ?_, boundDuring_of_get hget (by simpa [boundTo] using hto),
    .inl (quiet_append.mpr ⟨hx, fun _ _ => hread, hquiet⟩)⟩
  intro hc
  rw [← hresolved, bindResolved, if_pos hc]

/-- A bind that returns found its row bound or wrote once; by induction on the events of its call. -/
theorem bind_outcome {i : Nat} (n : Nat) : ∀ {s : System} {events : List Event} {attempts : Nat}
    {conversation : String} {state : Option LifecycleState}, events.length ≤ n →
    (s.processes i).call = .bindRead session attempts conversation → Interleaved i s events →
    ((s.run events).processes i).call = .returned state →
      ∃ st, state = some st ∧ (conversation ≠ "" → st.conversationId = conversation) ∧
        BindOutcome i session st.conversationId s events := by
  induction n with
  | zero =>
    intro s events attempts conversation state hlen hcall _ hret
    rw [List.length_eq_zero_iff.mp (Nat.le_zero.mp hlen), System.run_nil, hcall] at hret
    cases hret
  | succ n ih =>
    intro s events attempts conversation state hlen hcall hinter hret
    obtain ⟨x, t, rest, rfl, hx, hxcall⟩ := first_step hinter.continues (by rw [hret, hcall]; simp)
    rw [hcall] at hxcall
    obtain ⟨hread, hafter⟩ := bindRead_step t hxcall
    rw [System.run_append, System.run_cons] at hret
    have hrest := hinter.rest
    by_cases hbound : (bindLookup (s.run x).db.lifecycle session conversation).any
      (fun st => boundTo session st.row) = true
    · rw [if_pos hbound] at hafter
      exact BindOutcome.of_bound hx hread hrest.continues hbound hafter hret
    · rw [if_neg hbound] at hafter
      obtain ⟨y, now, z, rfl, hy, hycall⟩ := first_step hrest.continues (by rw [hret, hafter]; simp)
      set c := bindResolved (s.run x).db.lifecycle session conversation with hc
      have hconv : conversation ≠ "" → c = conversation := fun h => by rw [hc, bindResolved, if_pos h]
      have hmid : ((s.run x).next (.step i t)).run y = s.run (x ++ .step i t :: y) := by
        rw [System.run_append, System.run_cons]
      have hquiet : Quiet i s (x ++ .step i t :: y) := quiet_append.mpr ⟨hx, fun _ _ => hread, hy⟩
      rw [hafter, hmid] at hycall
      rw [System.run_append, System.run_cons, hmid] at hret
      have hlater : Interleaved i ((s.run (x ++ .step i t :: y)).next (.step i now)) z := by
        apply Interleaved.rest
        rw [List.append_assoc]
        exact hinter
      obtain ⟨hwrote, hdb, hfetch⟩ | ⟨hdb, hnext⟩ := bindWrite_step now hycall
      · obtain ⟨st, hst, hstc, hout⟩ :=
          BindOutcome.of_attempt hinter hx hread hy (seen_of_bindLookup hbound) hycall hwrote
          hdb hfetch hret
        exact ⟨st, hst, fun h => hstc.trans (hconv h), hstc ▸ hout⟩
      · -- The guard failed: nothing was written, and the call tries again or takes the write lock.
        have hsplit : x ++ Event.step i t :: (y ++ .step i now :: z) =
            ((x ++ .step i t :: y) ++ [.step i now]) ++ z := by simp
        have hfailed : Quiet i s ((x ++ .step i t :: y) ++ [.step i now]) :=
          quiet_append.mpr ⟨hquiet, fun _ _ => hdb, trivial⟩
        have hstate : s.run ((x ++ .step i t :: y) ++ [.step i now]) =
            (s.run (x ++ .step i t :: y)).next (.step i now) := by
          rw [System.run_append]
          rfl
        rw [hsplit]
        cases hnext with
        | inl htrans =>
          obtain ⟨st, hst, hstc, hout⟩ := transaction_outcome htrans hlater.continues hret
          exact ⟨st, hst, fun h => hstc.trans (hconv h), .prepend hfailed (by rw [hstate, hstc]; exact hout)⟩
        | inr hagain =>
          obtain ⟨m, hagain⟩ := hagain
          have hshort : z.length ≤ n := by
            simp only [List.length_append, List.length_cons] at hlen
            omega
          obtain ⟨st, hst, hstc, hout⟩ := ih hshort hagain hlater hret
          refine ⟨st, hst, ?_, .prepend hfailed (by rw [hstate]; exact hout)⟩
          intro h
          rw [hstc (by rw [hconv h]; exact h), hconv h]

theorem rows_filter_le_one (t : Rows) (c : String) : (t.rows.filter fun p => p.1 = c).length ≤ 1 := by
  cases hrow : t.get c with
  | none =>
    have hnil : (t.rows.filter fun p => p.1 = c) = [] := by
      rw [List.filter_eq_nil_iff]
      intro p hp
      simpa using fun he => KeyedTable.get_eq_none.mp hrow (List.mem_map.mpr ⟨p, hp, he⟩)
    simp [hnil]
  | some row => simp [rows_filter_key hrow]

/-- Every `bind_session` that returns found the row bound to its session or wrote it once, as the plan of the
row at that write; the conversation never has two rows. -/
theorem bind_session_linearizable {i : Nat} {s : System} {session conversation : String} {events : List Event}
    {state : Option LifecycleState} (hcall : (s.processes i).call = (Request.bindSession session conversation).call)
    (hinter : Interleaved i s events) (hret : ((s.run events).processes i).call = .returned state) :
    ∃ st, state = some st ∧ (conversation ≠ "" → st.conversationId = conversation) ∧
      BoundDuring session st.conversationId s events ∧
      (Quiet i s events ∨ WroteOnce i session st.conversationId s events) ∧
      ∀ a b, events = a ++ b → ((s.run a).db.lifecycle.rows.filter fun p => p.1 = st.conversationId).length ≤ 1 := by
  obtain ⟨st, hst, hconv, hbound, hdone⟩ := bind_outcome events.length le_rfl hcall hinter hret
  exact ⟨st, hst, hconv, hbound, hdone, fun a _ _ => rows_filter_le_one (s.run a).db.lifecycle _⟩

/-! ## Three processes on one row -/

theorem single_nodup (row : Row) : [("c", row).1].Nodup := List.nodup_singleton _

/-- One conversation whose row is bound to a session, and three processes about to bind others. -/
def threeBinds (row : Row) (first second third : String) : System where
  db := ⟨⟨[("c", row)], single_nodup row⟩, .empty, 0, [], 0, []⟩
  processes := fun i =>
    ⟨if i = 0 then .bindRead first bindCasAttempts "c"
      else if i = 1 then .bindRead second bindCasAttempts "c"
      else if i = 2 then .bindRead third bindCasAttempts "c" else .returned none, none⟩

/-- Process 0 reads, processes 1 and 2 bind one after the other, and process 0 writes and returns. -/
def overtaken : List Event :=
  [.step 0 10, .step 1 11, .step 1 12, .step 2 13, .step 2 14, .step 0 15, .step 0 16]

theorem get_threeBinds {row row' : Row} {first second third c : String}
    (h : (threeBinds row first second third).db.lifecycle.get c = some row') : row' = row := by
  have hin := KeyedTable.get_eq_some.mp h
  simp only [threeBinds, List.mem_singleton, Prod.mk.injEq] at hin
  exact hin.2

theorem interleaved_overtaken {first second third : String} (hsession : session ≠ "") (hfirst : first ≠ "")
    (hsecond : second ≠ "") (hthird : third ≠ "") :
    Interleaved 0 (threeBinds (firstRow session 1) first second third) overtaken := by
  constructor
  · simp [Continues, overtaken]
  · constructor
    · decide
    · intro now _ c row hrow
      rw [get_threeBinds hrow]
      simp [firstRow]
  · constructor
    · intro c row hrow
      rw [get_threeBinds hrow]
      simpa [firstRow] using hsession
    · intro i
      simp only [threeBinds]
      split
      · simpa [Call.binds] using hfirst
      · split
        · simpa [Call.binds] using hsecond
        · split
          · simpa [Call.binds] using hthird
          · simp [Call.binds]
  · simp [overtaken]

theorem bind_session_linearizable_overtaken :
    BoundDuring "s" "c" (threeBinds (firstRow "x" 1) "s" "y" "x") overtaken ∧
      (Quiet 0 (threeBinds (firstRow "x" 1) "s" "y" "x") overtaken ∨
        WroteOnce 0 "s" "c" (threeBinds (firstRow "x" 1) "s" "y" "x") overtaken) := by
  have hinter : Interleaved 0 (threeBinds (firstRow "x" 1) "s" "y" "x") overtaken :=
    interleaved_overtaken (by decide) (by decide) (by decide) (by decide)
  have hcall : ((threeBinds (firstRow "x" 1) "s" "y" "x").processes 0).call = (Request.bindSession "s" "c").call := rfl
  obtain ⟨st, -, hconv, hbound, hdone, -⟩ := bind_session_linearizable hcall hinter rfl
  rw [hconv (by decide)] at hbound hdone
  exact ⟨hbound, hdone⟩

/-- The read of process 0 is older than the binds of the other two, and still it writes over them: with session
ids that are not empty its decision is the fresh one, with an empty one it writes a rollover time of its own read. -/
theorem stale_bind_lands :
    (((threeBinds (firstRow "x" 1) "s" "y" "x").db.lifecycle.get "c").bind Row.currentBoundAt = some 1 ∧
      (((threeBinds (firstRow "x" 1) "s" "y" "x").run (overtaken.take 5)).db.lifecycle.get "c").bind
      Row.currentBoundAt = some 14 ∧
      (((threeBinds (firstRow "x" 1) "s" "y" "x").run (overtaken.take 6)).db.lifecycle.get "c").bind
      Row.currentSessionId = some "s") ∧
    (∃ row, ((threeBinds (firstRow "" 1) "s" "y" "").run (overtaken.take 5)).db.lifecycle.get "c" = some row ∧
      ∃ row', ((threeBinds (firstRow "" 1) "s" "y" "").run (overtaken.take 6)).db.lifecycle.get "c" = some row' ∧
        row'.currentSessionId = some "s" ∧ row' ≠ boundRow row "s" 15 row) := by
  refine ⟨by decide +kernel, _, rfl, _, rfl, rfl, ?_⟩
  decide +kernel

end Lifecycle
