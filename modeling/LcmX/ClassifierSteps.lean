import LcmX.ClassifierFinish

/-!
# What a phase can do to a pass

Every phase before `finish` notes things and accepts new rows. `Quiet` is what
the notes leave alone, `Grows` a run of notes and acceptances; each phase is
shown to grow the pass under its own licence.
-/
namespace Classifier

open IngestLedger

/-- What the later phases read of a row. -/
def RowVerdict.core (v : RowVerdict) : Verdict × Option Evidence × Option Target := (v.verdict, v.evidence, v.target)

theorem RowVerdict.core_eq {v : RowVerdict} {verdict : Verdict} {evidence : Option Evidence} {target : Option Target}
    (h : v.core = (verdict, evidence, target)) : v.verdict = verdict ∧ v.evidence = evidence ∧ v.target = target := by
  simpa [RowVerdict.core] using h

/-- The same verdicts and claims; only notes differ. -/
structure SameCore (p p' : Pass) : Prop where
  core : ∀ i, (p'.rows i).core = (p.rows i).core
  used : p'.used = p.used

structure Quiet (p p' : Pass) : Prop extends SameCore p p' where
  head : p'.head = p.head
  run : p'.run = p.run
  runRecord : p'.runRecord = p.runRecord
  plan : p'.plan = p.plan

namespace SameCore

variable {p q r : Pass}

theorem refl (p : Pass) : SameCore p p := ⟨fun _ => rfl, rfl⟩

theorem trans (h : SameCore p q) (h' : SameCore q r) : SameCore p r where
  core i := (h'.core i).trans (h.core i)
  used := h'.used.trans h.used

theorem verdict (h : SameCore p q) (i : Nat) : (q.rows i).verdict = (p.rows i).verdict :=
  (RowVerdict.core_eq (h.core i)).1

theorem target (h : SameCore p q) (i : Nat) : (q.rows i).target = (p.rows i).target :=
  (RowVerdict.core_eq (h.core i)).2.2

end SameCore

namespace Quiet

variable {p q r : Pass}

theorem refl (p : Pass) : Quiet p p := ⟨.refl p, rfl, rfl, rfl, rfl⟩

theorem trans (h : Quiet p q) (h' : Quiet q r) : Quiet p r where
  toSameCore := h.toSameCore.trans h'.toSameCore
  head := h'.head.trans h.head
  run := h'.run.trans h.run
  runRecord := h'.runRecord.trans h.runRecord
  plan := h'.plan.trans h.plan

end Quiet

/-! ## Notes -/

section Notes

variable (p : Pass) (i : Nat)

theorem quiet_count (key : Counter) (n : Nat) : Quiet p (p.count key n) := ⟨⟨fun _ => rfl, rfl⟩, rfl, rfl, rfl, rfl⟩

theorem quiet_modifyRow {f : RowVerdict → RowVerdict} (h : ∀ v, (f v).core = v.core) : Quiet p (p.modifyRow i f) := by
  constructor
  · constructor
    · intro j
      by_cases hj : j = i
      · subst hj
        simp [Pass.modifyRow, h]
      · simp [Pass.modifyRow, hj]
    · rfl
  · rfl
  · rfl
  · rfl
  · rfl

theorem quiet_setFirst (t : Target) : Quiet p (p.setFirst i t) := ⟨⟨fun _ => rfl, rfl⟩, rfl, rfl, rfl, rfl⟩

theorem quiet_remember (t : Target) : Quiet p (p.remember i t) := by
  simp only [Pass.remember]
  split
  · exact quiet_setFirst p i t
  · exact ⟨⟨fun _ => rfl, rfl⟩, rfl, rfl, rfl, rfl⟩

theorem quiet_reject (t : Target) (reason : Reason) : Quiet p (p.reject i t reason) := by
  apply (quiet_remember p i t).trans
  exact ⟨⟨fun _ => rfl, rfl⟩, rfl, rfl, rfl, rfl⟩

theorem quiet_setFirsts (targets : List Target) : Quiet p (targets.foldl (fun p t => p.setFirst i t) p) := by
  induction targets generalizing p with
  | nil => exact .refl p
  | cons t targets ih => exact (quiet_setFirst p i t).trans (ih _)

theorem quiet_defer (shape : Shape) (targets : List Target) : Quiet p (p.defer i shape targets) := by
  have hnote : Quiet p (targets.foldl (fun p t => p.setFirst i t)
      (p.modifyRow i fun v => { v with deferred := some shape, reason := some .deferred })) := by
    refine Quiet.trans ?_ (quiet_setFirsts _ i targets)
    exact quiet_modifyRow p i fun _ => rfl
  cases shape with
  | partialText =>
    simp only [Pass.defer]
    refine hnote.trans ?_
    apply quiet_modifyRow
    exact fun _ => rfl
  | rank5 => exact hnote

end Notes

/-! ## Acceptances -/

/-- A run of notes and acceptances, each of a new row, of an unclaimed target and under the licence. -/
inductive Grows (P : Nat → Target → Option Evidence → Prop) : Pass → Pass → Prop where
  | quiet {p q : Pass} (h : Quiet p q) : Grows P p q
  | accept {p : Pass} {i : Nat} {t : Target} {ev : Option Evidence} (hnew : (p.rows i).verdict = .new)
      (hfree : t ∉ p.used) (hlicence : P i t ev) : Grows P p (p.accept i t ev).1
  | trans {p q r : Pass} (h : Grows P p q) (h' : Grows P q r) : Grows P p r

variable {P Q : Nat → Target → Option Evidence → Prop} {p q : Pass}

theorem Grows.refl (p : Pass) : Grows P p p := .quiet (.refl p)

theorem Grows.mono (himp : ∀ i t ev, P i t ev → Q i t ev) (h : Grows P p q) : Grows Q p q := by
  induction h with
  | quiet h => exact .quiet h
  | accept hnew hfree hlicence => exact .accept hnew hfree (himp _ _ _ hlicence)
  | trans _ _ ih ih' => exact ih.trans ih'

theorem Grows.foldl {α : Type} {f : Pass → α → Pass} {l : List α} (hstep : ∀ a ∈ l, ∀ p, Grows P p (f p a)) (p : Pass) :
    Grows P p (l.foldl f p) := by
  induction l generalizing p with
  | nil => exact .refl p
  | cons a l ih =>
    exact (hstep a List.mem_cons_self p).trans (ih (fun x hx => hstep x (List.mem_cons_of_mem _ hx)) _)

theorem accept_free {i : Nat} {t : Target} {ev : Option Evidence} (hfree : t ∉ p.used) :
    p.accept i t ev = ({ p with
      rows := Function.update p.rows i { verdict := .replay, evidence := ev, target := some t }
      used := t :: p.used }, true) := if_neg hfree

theorem accept_used {i : Nat} {t : Target} {ev : Option Evidence} (hused : t ∈ p.used) :
    p.accept i t ev = (p, false) := if_pos hused

/-- Whether it succeeds or not, an acceptance of a new row under the licence is a growth. -/
theorem grows_accept {i : Nat} {t : Target} {ev : Option Evidence} (hnew : (p.rows i).verdict = .new)
    (hlicence : P i t ev) : Grows P p (p.accept i t ev).1 := by
  by_cases hfree : t ∈ p.used
  · rw [accept_used hfree]
    exact .refl p
  · exact .accept hnew hfree hlicence

/-- What growth leaves of a row: its core, or an acceptance under the licence. -/
theorem Grows.core (h : Grows P p q) (i : Nat) :
    (q.rows i).core = (p.rows i).core ∨
      (p.rows i).verdict = .new ∧ ∃ t ev, P i t ev ∧ t ∉ p.used ∧
      (q.rows i).core = (.replay, ev, some t) ∧ t ∈ q.used := by
  have hmono : ∀ {p q}, Grows P p q → ∀ t ∈ p.used, t ∈ q.used := by
    intro p q h
    induction h with
    | quiet h => exact fun t ht => by rwa [h.used]
    | accept _ hfree _ =>
      intro t ht
      rw [accept_free hfree]
      exact List.mem_cons_of_mem _ ht
    | trans _ _ ih ih' => exact fun t ht => ih' t (ih t ht)
  induction h with
  | quiet h => exact .inl (h.core i)
  | @accept p j t ev hnew hfree hlicence =>
    rw [accept_free hfree]
    by_cases hij : i = j
    · subst hij
      exact .inr ⟨hnew, t, ev, hlicence, hfree, by simp [RowVerdict.core], List.mem_cons_self⟩
    · left
      simp [hij]
  | @trans p q r h h' ih ih' =>
    cases ih' with
    | inl hsame =>
      cases ih with
      | inl hsame' => exact .inl (hsame.trans hsame')
      | inr hgrown =>
        obtain ⟨hnew, t, ev, hlicence, hfree, hcore, hused⟩ := hgrown
        exact .inr ⟨hnew, t, ev, hlicence, hfree, hsame.trans hcore, hmono h' t hused⟩
    | inr hgrown =>
      obtain ⟨hnew, t, ev, hlicence, hfree, hcore, hused⟩ := hgrown
      cases ih with
      | inl hsame =>
        have hv : (p.rows i).verdict = .new := (RowVerdict.core_eq hsame).1.symm.trans hnew
        exact .inr ⟨hv, t, ev, hlicence, fun ht => hfree (hmono h t ht), hcore, hused⟩
      | inr hbefore =>
        obtain ⟨-, t', ev', -, -, hcore', -⟩ := hbefore
        have hv := (RowVerdict.core_eq hcore').1
        rw [hnew] at hv
        cases hv

/-- Growth leaves the rows alone that are not new. -/
theorem Grows.settled (h : Grows P p q) {i : Nat} (hsettled : (p.rows i).verdict ≠ .new) :
    (q.rows i).core = (p.rows i).core := by
  obtain hsame | ⟨hnew, -⟩ := h.core i
  · exact hsame
  · exact absurd hnew hsettled

theorem Grows.head (h : Grows P p q) : q.head = p.head := by
  induction h with
  | quiet h => exact h.head
  | accept _ hfree _ => rw [accept_free hfree]
  | trans _ _ ih ih' => exact ih'.trans ih

theorem Grows.run (h : Grows P p q) : q.run = p.run ∧ q.runRecord = p.runRecord := by
  induction h with
  | quiet h => exact ⟨h.run, h.runRecord⟩
  | accept _ hfree _ =>
    rw [accept_free hfree]
    exact ⟨rfl, rfl⟩
  | trans _ _ ih ih' => exact ⟨ih'.1.trans ih.1, ih'.2.trans ih.2⟩

theorem Grows.plan (h : Grows P p q) : q.plan = p.plan := by
  induction h with
  | quiet h => exact h.plan
  | accept _ hfree _ => rw [accept_free hfree]
  | trans _ _ ih ih' => exact ih'.trans ih

/-! ## Origins -/

/-- Each row is as it was at first, or was accepted under the licence. -/
def Licensed (P : Nat → Target → Option Evidence → Prop) (p : Pass) : Prop :=
  ∀ i, (∃ v, v ≠ .replay ∧ (p.rows i).core = (v, none, none)) ∨ ∃ t ev, P i t ev ∧
    (p.rows i).core = (.replay, ev, some t)

theorem licensed_initial (c : Context) : Licensed P c.initial := by
  intro i
  left
  simp only [Context.initial]
  split
  · exact ⟨.skip, by decide, rfl⟩
  · exact ⟨.new, by decide, rfl⟩

theorem Licensed.sameCore (h : Licensed P p) (hsame : SameCore p q) : Licensed P q := by
  intro i
  rw [hsame.core i]
  exact h i

theorem Licensed.grows (h : Licensed P p) (hgrows : Grows Q p q)
    (himp : ∀ i t ev, Q i t ev → P i t ev) : Licensed P q := by
  intro i
  obtain hsame | ⟨-, t, ev, hQ, -, hcore, -⟩ := hgrows.core i
  · rw [hsame]
    exact h i
  · exact .inr ⟨t, ev, himp i t ev hQ, hcore⟩

theorem Licensed.imp (h : Licensed P p)
    (himp : ∀ i t ev, P i t ev → (p.rows i).verdict = .replay → Q i t ev) : Licensed Q p := by
  intro i
  cases h i with
  | inl hfirst => exact .inl hfirst
  | inr hreplay =>
    obtain ⟨t, ev, hP, hcore⟩ := hreplay
    exact .inr ⟨t, ev, himp i t ev hP (RowVerdict.core_eq hcore).1, hcore⟩

theorem Licensed.replay (h : Licensed P p) {i : Nat} (hreplay : (p.rows i).verdict = .replay) :
    ∃ t, (p.rows i).target = some t ∧ P i t (p.rows i).evidence := by
  obtain ⟨v, hv, hcore⟩ | ⟨t, ev, hP, hcore⟩ := h i
  · exact absurd ((RowVerdict.core_eq hcore).1.symm.trans hreplay) hv
  · obtain ⟨-, hevidence, htarget⟩ := RowVerdict.core_eq hcore
    exact ⟨t, htarget, hevidence ▸ hP⟩

theorem Licensed.evidence (h : Licensed P p) {i : Nat} {ev : Evidence} (hev : ev ∈ (p.rows i).evidence) :
    ∃ t, P i t (some ev) := by
  obtain ⟨v, -, hcore⟩ | ⟨t, ev', hP, hcore⟩ := h i
  · rw [(RowVerdict.core_eq hcore).2.1] at hev
    cases hev
  · rw [(RowVerdict.core_eq hcore).2.1] at hev
    cases hev
    exact ⟨t, hP⟩

/-! ## Claims -/

/-- Every replay row claims its target, and no two rows claim one. -/
structure Once (p : Pass) : Prop where
  claimed : ∀ i, (p.rows i).verdict = .replay → ∃ t ∈ p.used, (p.rows i).target = some t
  once : ∀ i j, (p.rows i).verdict = .replay → (p.rows j).verdict = .replay →
    (p.rows i).target = (p.rows j).target → i = j

theorem Once.sameCore (h : Once p) (hsame : SameCore p q) : Once q := by
  constructor
  · intro i hi
    rw [hsame.verdict] at hi
    rw [hsame.used, hsame.target]
    exact h.claimed i hi
  · intro i j hi hj
    rw [hsame.verdict] at hi hj
    rw [hsame.target, hsame.target]
    exact h.once i j hi hj

/-- Accepting a free target for a new row keeps each target claimed once. -/
theorem Once.accept (h : Once p) {i : Nat} {t : Target} {ev : Option Evidence} (hnew : (p.rows i).verdict = .new)
    (hfree : t ∉ p.used) : Once (p.accept i t ev).1 := by
  rw [accept_free hfree]
  -- The target was free, so no other replay row has it.
  have hother : ∀ j, j ≠ i → (p.rows j).verdict = .replay → (p.rows j).target ≠ some t := by
    intro j _ hj ht
    obtain ⟨t', ht', htarget⟩ := h.claimed j hj
    rw [htarget] at ht
    cases ht
    exact hfree ht'
  constructor
  · intro j hj
    by_cases hji : j = i
    · subst hji
      exact ⟨t, List.mem_cons_self, by simp⟩
    · simp only [Function.update_of_ne hji] at hj ⊢
      obtain ⟨t', ht', htarget⟩ := h.claimed j hj
      exact ⟨t', List.mem_cons_of_mem _ ht', htarget⟩
  · intro j k hj hk heq
    by_cases hji : j = i
    · by_cases hki : k = i
      · rw [hji, hki]
      · subst hji
        simp only [Function.update_of_ne hki, Function.update_self] at hk heq
        exact absurd heq.symm (hother k hki hk)
    · by_cases hki : k = i
      · subst hki
        simp only [Function.update_of_ne hji, Function.update_self] at hj heq
        exact absurd heq (hother j hji hj)
      · simp only [Function.update_of_ne hji, Function.update_of_ne hki] at hj hk heq
        exact h.once j k hj hk heq

theorem Once.grows (h : Once p) (hgrows : Grows P p q) : Once q := by
  induction hgrows with
  | quiet hquiet => exact h.sameCore hquiet.toSameCore
  | accept hnew hfree _ => exact h.accept hnew hfree
  | trans _ _ ih ih' => exact ih' (ih h)

theorem once_initial (c : Context) : Once c.initial := by
  constructor
  · intro i hi
    simp only [Context.initial] at hi
    split at hi <;> cases hi
  · intro i j hi
    simp only [Context.initial] at hi
    split at hi <;> cases hi

end Classifier
