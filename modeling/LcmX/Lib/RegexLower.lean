import LcmX.Lib.Regex
import LcmX.Lib.PyText

/-!
# References back to a captured text

A reference that ignores the case compares characters one by one, each lowered on
its own. Where an expression is searched, nothing before the match could start one.
-/
namespace Regex

/-- A character lowered on its own, where one that is lowered to others outside ASCII stays as it is. -/
def lowered (c : Char) : Char := if c.toNat = 0x212a then 'k' else if c.toNat = 0x130 then 'i' else c.toLower

/-- A captured text again, ignoring the case. -/
def litLowered : List Char → Re
  | [] => .empty
  | c :: w => .seq (.char fun d => lowered d = lowered c) (litLowered w)

theorem Yields.litLowered (w : List Char) : Yields (litLowered w) fun v => v.map lowered = w.map lowered := by
  induction w with
  | nil =>
    intro s t ht
    rw [List.mem_singleton.mp ht]
    exact ⟨[], .refl s, rfl, rfl⟩
  | cons c w ih =>
    refine (Yields.seq (Yields.char _) ih).imp ?_
    rintro _ ⟨_, v, rfl, ⟨d, rfl, hd⟩, hv⟩
    rw [List.singleton_append, List.map_cons, List.map_cons, of_decide_eq_true hd, hv]

theorem Accepts.litLowered {w v : List Char} (h : v.map lowered = w.map lowered) : Accepts (litLowered w) v := by
  induction w generalizing v with
  | nil =>
    obtain rfl := List.map_eq_nil_iff.mp h
    exact fun behind rest groups => List.mem_singleton_self _
  | cons c w ih =>
    obtain ⟨d, v, rfl, hd, hv⟩ := List.map_eq_cons_iff.mp h
    exact (Accepts.char (decide_eq_true hd)).seq (ih hv)

theorem Accepts.litIgnoringCase {w v : List Char} (h : List.Forall₂ (fun c d => ignoringCase c d = true) w v) :
    Accepts (litIgnoringCase w) v := by
  intro behind rest groups
  rw [run_litIgnoringCase behind rest groups h]
  exact List.mem_singleton_self _

/-! ## Alternatives -/

def oneOf (alternatives : List Re) : Re := alternatives.foldr .or (.test fun _ _ => false)

theorem mem_run_oneOf {alternatives : List Re} {s t : State} : t ∈ run (oneOf alternatives) s ↔
    ∃ a ∈ alternatives, t ∈ run a s := by
  induction alternatives with
  | nil => simp [oneOf, run]
  | cons a alternatives ih =>
    rw [oneOf, List.foldr_cons, run, List.mem_append, ← oneOf, ih]
    simp

/-! ## Searching -/

/-- What is found starts at the first place where the expression matches. -/
theorem search_some {a : Re} {m : Match} : ∀ {ahead behind : List Char}, search a behind ahead = some m →
    ∃ u v t, ahead = u ++ v ∧ matchAt a (u.reverse ++ behind) v = some t ∧ m = found ⟨u.reverse ++ behind, v, []⟩ t ∧
      ∀ x y, ahead = x ++ y → x.length < u.length → matchAt a (x.reverse ++ behind) y = none := by
  intro ahead
  induction ahead with
  | nil =>
    intro behind h
    obtain ⟨t, ht, rfl⟩ := Option.map_eq_some_iff.mp h
    exact ⟨[], [], t, rfl, ht, rfl, fun x y _ hlt => absurd hlt (Nat.not_lt_zero _)⟩
  | cons c rest ih =>
    intro behind h
    rw [search] at h
    cases hhere : matchAt a behind (c :: rest) with
    | some t =>
      rw [matchText, hhere] at h
      cases h
      exact ⟨[], c :: rest, t, rfl, hhere, rfl, fun x y _ hlt => absurd hlt (Nat.not_lt_zero _)⟩
    | none =>
      rw [matchText, hhere, Option.map_none, Option.none_or] at h
      obtain ⟨u, v, t, rfl, ht, hm, hbefore⟩ := ih h
      refine ⟨c :: u, v, t, rfl, by simpa using ht, by simpa using hm, fun x y hxy hlt => ?_⟩
      cases x with
      | nil =>
        rw [List.nil_append] at hxy
        rw [List.reverse_nil, List.nil_append, ← hxy]
        exact hhere
      | cons d x =>
        obtain ⟨rfl, htail⟩ := List.cons_eq_cons.mp (show c :: (u ++ v) = d :: (x ++ y) from hxy)
        simpa using hbefore x y htail (Nat.lt_of_succ_lt_succ hlt)

theorem search_none {a : Re} : ∀ {ahead behind : List Char}, search a behind ahead = none →
    ∀ x y, ahead = x ++ y → matchAt a (x.reverse ++ behind) y = none := by
  intro ahead
  induction ahead with
  | nil =>
    intro behind h x y hxy
    obtain ⟨rfl, rfl⟩ := List.append_eq_nil_iff.mp hxy.symm
    simpa [search, matchText] using h
  | cons c rest ih =>
    intro behind h x y hxy
    rw [search, Option.or_eq_none_iff, matchText, Option.map_eq_none_iff] at h
    cases x with
    | nil =>
      rw [List.nil_append] at hxy
      rw [List.reverse_nil, List.nil_append, ← hxy]
      exact h.1
    | cons d x =>
      obtain ⟨rfl, htail⟩ := List.cons_eq_cons.mp (show c :: rest = d :: (x ++ y) from hxy)
      simpa using ih h.2 x y htail

/-- A lazy class has stopped at the first place where the rest of the expression matches. -/
theorem lazy_head {p : Char → Bool} {k : State → List State} {groups : List (Nat × Nat × Nat)}
    {t : State} : ∀ {ahead behind : List Char},
    ((run (.rep true 0 none (.char p)) ⟨behind, ahead, groups⟩).flatMap k).head? = some t →
    ∃ w v, ahead = w ++ v ∧ t ∈ k ⟨w.reverse ++ behind, v, groups⟩ ∧
      ∀ x y, ahead = x ++ y → x.length < w.length → k ⟨x.reverse ++ behind, y, groups⟩ = [] := by
  intro ahead
  induction ahead with
  | nil =>
    intro behind h
    rw [run_rep_char_nil, if_pos rfl, List.flatMap_singleton] at h
    exact ⟨[], [], rfl, List.mem_of_mem_head? h, fun x y _ hlt => absurd hlt (Nat.not_lt_zero _)⟩
  | cons c rest ih =>
    intro behind h
    rw [run_lazy_cons, List.flatMap_cons, List.head?_append] at h
    cases hhere : (k ⟨behind, c :: rest, groups⟩).head? with
    | some u =>
      rw [hhere] at h
      cases h
      exact ⟨[], c :: rest, rfl, List.mem_of_mem_head? hhere, fun x y _ hlt => absurd hlt (Nat.not_lt_zero _)⟩
    | none =>
      rw [hhere, Option.none_or] at h
      split at h
      · obtain ⟨w, v, rfl, ht, hbefore⟩ := ih h
        refine ⟨c :: w, v, rfl, by simpa using ht, fun x y hxy hlt => ?_⟩
        cases x with
        | nil =>
          rw [List.nil_append] at hxy
          rw [List.reverse_nil, List.nil_append, ← hxy]
          exact List.head?_eq_none_iff.mp hhere
        | cons d x =>
          obtain ⟨rfl, htail⟩ := List.cons_eq_cons.mp (show c :: (w ++ v) = d :: (x ++ y) from hxy)
          simpa using hbefore x y htail (Nat.lt_of_succ_lt_succ hlt)
      · cases h

end Regex
