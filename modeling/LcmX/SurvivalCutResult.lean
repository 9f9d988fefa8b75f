import LcmX.SurvivalCutSafe
import Mathlib

/-!
# The cut list

What a list that a cut returns owes to the list it came from. A cut of whole turns
owes more: coverage for an exit fit, the rows that must be kept, and the budget. The
projected newest turn, which is taken when no whole turns can leave, is only stored.
-/
namespace SurvivalFit

section

variable {V S : Type}

/-- A row of the list is in another row: itself, its projection, or the carrier that is formed again around it. -/
def Carried (h : Host V S) (c : CutCall V) (source row : Row V) : Prop :=
  Represents h c.storeIds source row ∨
    ∃ carrier first, carrier ∈ c.rows.take c.lead ∧ Represents h c.storeIds source first ∧
      IsReformed h carrier first row

/-- The rows in front, where a system row may have got the notice. -/
def IsNoticed (h : Host V S) (front noticed : List (Row V)) : Prop :=
  noticed = front ∨ ∃ first rest notice, front = first :: rest ∧ h.role first.value = "system" ∧
    noticed = ⟨none, h.withNotice first.value notice⟩ :: rest

/-- The rows that always stay, less a carrier that was split. -/
def IsLead (h : Host V S) (c : CutCall V) (front : List (Row V)) : Prop :=
  front = c.rows.take c.lead ∨
    ∃ carrier, c.wholeTurns = true ∧ c.rows.take c.lead = front ++ [carrier] ∧ (h.carrierRemainder carrier.value).isSome

/-- What every cut keeps. -/
structure Safe (h : Host V S) (c : CutCall V) (fitted : List (Row V)) (chosen : Nat) : Prop where
  /-- The chosen row is a user row that may leave, or nothing leaves. -/
  turn : (∃ row, c.rows[chosen]? = some row ∧ c.lead ≤ chosen ∧ h.role row.value = "user") ∨
    c.rows.drop chosen = c.rows.drop c.lead
  stored : ∀ source ∈ c.rows.drop c.lead, (∃ row ∈ fitted, Carried h c source row) ∨
    isDurable h c c.storeIds source = true
  order : ∃ front tail, fitted = front ++ tail ∧ List.Forall₂ (Carried h c) (c.rows.drop chosen) tail
  lead : ∃ front noticed rest, fitted = noticed ++ rest ∧ IsLead h c front ∧ IsNoticed h front noticed

/-- A summary node covers the stored row. -/
def IsNodeCovered (h : Host V S) (c : CutCall V) (source : Row V) : Prop :=
  ∃ id asked covered, mapped c.storeIds source = some id ∧ h.nodeCovered asked = some covered ∧ id ∈ covered

/-- What a cut of whole turns keeps. -/
structure Guarded (h : Host V S) (c : CutCall V) (fitted : List (Row V)) (chosen : Nat) : Prop where
  covered : c.isExit = true → ∀ source ∈ c.rows.drop c.lead, (∃ row ∈ fitted, Carried h c source row) ∨
    IsNodeCovered h c source ∨ h.isVerifiedScaffold source.value = true
  keepFrom : ∀ k, c.keepFrom = some k → chosen ≤ k
  budget : measureRows h fitted ≤ c.budget

/-- No cut of whole turns was found, and a projection is allowed. -/
def IsFallback (h : Host V S) (c : CutCall V) : Prop :=
  c.wholeTurns = false ∧ oldestCut h c (parts h c) ((users h (parts h c)).getLast?.getD 0) (users h (parts h c)) = none

variable {h : Host V S}

/-! ## Positions of the body -/

theorem head_isLead (c : CutCall V) : IsLead h c (parts h c).head := by
  rcases parts_cases h c with ⟨-, hhead, -, -⟩ | ⟨front, carrier, remainder, hwhole, htake, hremainder, hparts⟩
  · exact .inl hhead
  · exact .inr ⟨carrier, hwhole, by rw [hparts]; exact htake, by rw [hremainder]; rfl⟩

variable {c : CutCall V} {source : Row V} {rest : List (Row V)} {cut : Cut V}

theorem carrier_mem {carrier : Row V} (hcarrier : (parts h c).carrier = some carrier) :
    carrier ∈ c.rows.take c.lead := by
  rcases parts_cases h c with ⟨hnone, -⟩ | ⟨front, split, remainder, -, htake, -, hparts⟩
  · rw [hnone] at hcarrier
    cases hcarrier
  · rw [hparts] at hcarrier
    cases hcarrier
    rw [htake]
    exact List.mem_append_right _ List.mem_cons_self

/-- The position in the list of a position of the body. -/
def place (h : Host V S) (c : CutCall V) (index : Nat) : Nat := (parts h c).head.length + index

theorem drop_place (c : CutCall V) {index : Nat} (hindex : (parts h c).carrier = none ∨ 0 < index) :
    (parts h c).body.drop index = c.rows.drop (place h c index) := by
  have hlength := length_rows c
  rcases parts_cases h c with ⟨-, hhead, hbody, -⟩ | ⟨front, carrier, remainder, -, htake, -, hparts⟩
  · rw [place, hhead, hbody, List.drop_drop, List.length_take]
    by_cases hlead : c.lead ≤ c.rows.length
    · rw [Nat.min_eq_left hlead]
    · rw [List.drop_eq_nil_of_le (by omega), List.drop_eq_nil_of_le (by omega)]
  · have hfront := congrArg List.length htake
    rw [List.length_take, List.length_append, List.length_singleton] at hfront
    rw [place, hparts]
    rw [hparts] at hindex
    cases index with
    | zero => exact absurd hindex (by simp)
    | succ index =>
      rw [List.drop_succ_cons, List.drop_drop]
      by_cases hlead : c.lead ≤ c.rows.length
      · congr 1
        simp only
        omega
      · rw [List.drop_eq_nil_of_le (by omega), List.drop_eq_nil_of_le (by simp only; omega)]

theorem mem_body (hsource : source ∈ c.rows.drop c.lead) : source ∈ (parts h c).body := by
  rcases parts_cases h c with ⟨-, -, hbody, -⟩ | ⟨front, carrier, remainder, -, -, -, hparts⟩
  · rw [hbody]
    exact hsource
  · rw [hparts]
    exact List.mem_cons_of_mem _ hsource

theorem lead_le_place (c : CutCall V) {index : Nat} (hindex : (parts h c).carrier = none ∨ 0 < index)
    (hbody : index < (parts h c).body.length) : c.lead ≤ place h c index := by
  have hlength := length_rows c
  rcases parts_cases h c with ⟨-, hhead, hb, -⟩ | ⟨front, carrier, remainder, -, htake, -, hparts⟩
  · rw [hb, List.length_drop] at hbody
    rw [place, hhead, List.length_take]
    omega
  · have hfront := congrArg List.length htake
    rw [List.length_take, List.length_append, List.length_singleton] at hfront
    rw [hparts] at hindex hbody
    simp only [List.length_cons, List.length_drop, reduceCtorEq, false_or] at hbody hindex
    rw [place, hparts]
    simp only
    omega

/-! ## From the body to the list -/

theorem represents_parts {row : Row V} (hsource : source ∈ c.rows)
    (hrow : Represents h (parts h c).ids source row) : Represents h c.storeIds source row := by
  rcases hrow with hrow | ⟨hobject, id, stored, hid, hget, hvalue⟩
  · exact .inl hrow
  · exact .inr ⟨hobject, id, stored, mapped_parts c hsource ▸ hid, hget, hvalue⟩

theorem durable_parts (hsource : source ∈ c.rows)
    (hdurable : isDurable h c (parts h c).ids source = true) : isDurable h c c.storeIds source = true := by
  rwa [isDurable, mapped_parts c hsource] at hdurable

/-- What represents a row before the list is built carries it afterwards. -/
theorem kept_carried {kept : List (Row V)} (hfollows : Follows h (parts h c) kept rest) {row : Row V}
    (hsource : source ∈ c.rows) (hrow : row ∈ kept) (hrepresents : Represents h (parts h c).ids source row) :
    ∃ row' ∈ rest, Carried h c source row' := by
  have hown := represents_parts hsource hrepresents
  obtain ⟨summary, tail, rfl, rfl | ⟨carrier, first, more, merged, hcarrier, rfl, rfl, hreformed⟩⟩ := hfollows
  · exact ⟨row, List.mem_append_right _ hrow, .inl hown⟩
  · rcases List.mem_cons.mp hrow with rfl | hmore
    · exact ⟨merged, List.mem_append_right _ List.mem_cons_self,
        .inr ⟨carrier, row, carrier_mem hcarrier, hown, hreformed⟩⟩
    · exact ⟨row, List.mem_append_right _ (List.mem_cons_of_mem _ hmore), .inl hown⟩

/-- The rows from the cut on keep their order. -/
theorem kept_order {kept replies turn sources : List (Row V)} (hfollows : Follows h (parts h c) kept rest)
    (hkept : kept = replies ++ turn) (hsources : ∀ source ∈ sources, source ∈ c.rows)
    (hturn : List.Forall₂ (Represents h (parts h c).ids) sources turn) :
    ∃ front tail, rest = front ++ tail ∧ List.Forall₂ (Carried h c) sources tail := by
  have hcarried : List.Forall₂
      (fun source row => source ∈ c.rows ∧ Represents h c.storeIds source row) sources turn := by
    refine List.forall₂_iff_get.mpr ⟨hturn.length_eq, fun i hi hi' => ?_⟩
    have hmem : sources.get ⟨i, hi⟩ ∈ c.rows := hsources _ (List.get_mem ..)
    exact ⟨hmem, represents_parts hmem (hturn.get hi hi')⟩
  have hown : List.Forall₂ (Carried h c) sources turn := hcarried.imp fun _ _ hrow => .inl hrow.2
  obtain ⟨summary, tail, rfl, rfl | ⟨carrier, first, more, merged, hcarrier, hfirst, rfl, hreformed⟩⟩ := hfollows
  · exact ⟨summary ++ replies, turn, by rw [hkept, List.append_assoc], hown⟩
  · rw [hkept] at hfirst
    cases replies with
    | cons reply replies =>
      rw [List.cons_append, List.cons.injEq] at hfirst
      exact ⟨summary ++ merged :: replies, turn, by rw [← hfirst.2, List.append_assoc, List.cons_append], hown⟩
    | nil =>
      rw [List.nil_append] at hfirst
      rw [hfirst] at hcarried
      cases hcarried with
      | cons hhead htail =>
        exact ⟨summary, merged :: more, rfl, .cons (.inr ⟨carrier, first, carrier_mem hcarrier, hhead.2, hreformed⟩)
          (htail.imp fun _ _ hrow => .inl hrow.2)⟩

/-! ## The result -/

theorem noticedHead_isNoticed (p : Parts V) (notice : String) : IsNoticed h p.head (noticedHead h p notice) := by
  rw [noticedHead]
  split
  · next hnil => exact .inl hnil.symm
  · next first rest hhead =>
    split
    · next hrole => exact .inr ⟨first, rest, notice, hhead, hrole, rfl⟩
    · exact .inl hhead.symm

/-- A row in front of the cut is the reply that is kept, or it was dropped. -/
theorem IsCutAt.kept_or_dropped {index : Nat} {kept : List (Row V)} {reply : Option (Row V)}
    (hcut : IsCutAt h c cut index kept reply) (hindex : (parts h c).carrier = none ∨ 0 < index)
    (hfollows : Follows h (parts h c) kept rest) (hsource : source ∈ c.rows.drop c.lead) :
    (∃ row ∈ rest, Carried h c source row) ∨
      source ∈ (parts h c).body.take index ∧ reply.any (Row.isSame source) = false := by
  have hrows : source ∈ c.rows := List.mem_of_mem_drop hsource
  have hbody : source ∈ (parts h c).body.take index ++ (parts h c).body.drop index := by
    rw [List.take_append_drop]
    exact mem_body hsource
  rcases List.mem_append.mp hbody with htake | hdrop
  · cases hreply : reply with
    | none => exact .inr ⟨htake, rfl⟩
    | some r =>
      obtain ⟨hr, row, hrow, hrepresents⟩ := hcut.keeps.reply r hreply
      cases hsame : Row.isSame source r with
      | false => exact .inr ⟨htake, hsame⟩
      | true =>
        rw [← body_inj (mem_body hsource) hr hsame] at hrepresents
        exact .inl (kept_carried hfollows hrows hrow hrepresents)
  · left
    obtain ⟨replies, turn, hkept, hturn⟩ := hcut.keeps.rows
    rw [drop_place c hindex] at hturn hdrop
    obtain ⟨front, tail, rfl, htail⟩ := kept_order hfollows hkept (fun _ hs => List.mem_of_mem_drop hs) hturn
    obtain ⟨i, hi, rfl⟩ := List.mem_iff_getElem.mp hdrop
    have hi' : i < tail.length := htail.length_eq ▸ hi
    exact ⟨tail[i], List.mem_append_right _ (List.getElem_mem hi'), htail.get hi hi'⟩

theorem IsCutAt.result {index : Nat} {kept : List (Row V)} {reply : Option (Row V)}
    (hcut : IsCutAt h c cut index kept reply) (hindex : (parts h c).carrier = none ∨ 0 < index) :
    ∃ noticed rest, cut.fitted = noticed ++ rest ∧ IsNoticed h (parts h c).head noticed ∧
      Follows h (parts h c) kept rest := by
  have hne : (parts h c).head = [] → kept = [] → c.rows = [] := by
    intro hhead hkept
    obtain ⟨replies, turn, hsplit, hturn⟩ := hcut.keeps.rows
    rw [hkept] at hsplit
    rw [(List.append_eq_nil_iff.mp hsplit.symm).2, List.forall₂_nil_right_iff, List.drop_eq_nil_iff] at hturn
    rcases hcut.position with ⟨row, hrow, -⟩ | rfl
    · obtain ⟨hlt, -⟩ := List.getElem?_eq_some_iff.mp hrow
      omega
    · have hcarrier := hindex.resolve_right (Nat.lt_irrefl 0)
      rcases parts_cases h c with ⟨-, hfront, hbody, -⟩ | ⟨front, carrier, remainder, -, -, -, hparts⟩
      · rw [← List.take_append_drop c.lead c.rows, ← hfront, hhead, ← hbody,
          List.length_eq_zero_iff.mp (Nat.le_zero.mp hturn)]
        rfl
      · rw [hparts] at hcarrier
        cases hcarrier
  obtain ⟨notice, rest, hfitted, hfollows⟩ := build_follows c (parts h c) index reply hne
  exact ⟨_, rest, hcut.fitted.trans hfitted, noticedHead_isNoticed _ notice, hfollows⟩

theorem IsCutAt.safe {index : Nat} {kept : List (Row V)} {reply : Option (Row V)}
    (hcut : IsCutAt h c cut index kept reply) (hindex : (parts h c).carrier = none ∨ 0 < index) :
    Safe h c cut.fitted (place h c index) := by
  obtain ⟨noticed, rest, hfitted, hnoticed, hfollows⟩ := hcut.result hindex
  refine ⟨?_, ?_, ?_, ⟨_, noticed, rest, hfitted, head_isLead c, hnoticed⟩⟩
  · rcases hcut.position with ⟨row, hrow, hrole⟩ | rfl
    · left
      refine ⟨row, ?_, lead_le_place c hindex (List.getElem?_eq_some_iff.mp hrow).1, hrole⟩
      have hhead : ((parts h c).body.drop index)[0]? = some row := by rw [List.getElem?_drop, Nat.add_zero, hrow]
      rw [drop_place c hindex, List.getElem?_drop, Nat.add_zero] at hhead
      exact hhead
    · right
      rw [← drop_place c hindex]
      rcases parts_cases h c with ⟨-, -, hbody, -⟩ | ⟨front, carrier, remainder, -, -, -, hparts⟩
      · rw [hbody, List.drop_zero]
      · rw [hparts] at hindex
        exact absurd hindex (by simp)
  · intro source hsource
    rcases hcut.kept_or_dropped hindex hfollows hsource with ⟨row, hrow, hcarried⟩ | ⟨htake, hother⟩
    · exact .inl ⟨row, hfitted ▸ List.mem_append_right _ hrow, hcarried⟩
    · exact .inr (durable_parts (List.mem_of_mem_drop hsource) (hcut.durable source htake hother))
  · obtain ⟨replies, turn, hkept, hturn⟩ := hcut.keeps.rows
    rw [drop_place c hindex] at hturn
    obtain ⟨front, tail, hrest, htail⟩ := kept_order hfollows hkept (fun _ hs => List.mem_of_mem_drop hs) hturn
    exact ⟨noticed ++ front, tail, by rw [hfitted, hrest, List.append_assoc], htail⟩

theorem isCovered_spec (hsource : source ∈ c.rows) (hcovered : isCovered h c (parts h c) source = true) :
    IsNodeCovered h c source ∨ h.isVerifiedScaffold source.value = true := by
  rw [isCovered, mapped_parts c hsource, Bool.or_eq_true, Option.any_eq_true] at hcovered
  rcases hcovered with ⟨id, hid, hmem⟩ | hscaffold
  · left
    rw [decide_eq_true_eq, coveredIds] at hmem
    cases hread : h.nodeCovered
      (((c.keepFrom.map fun keep => (parts h c).body.take (keep - (parts h c).head.length)).getD
        (parts h c).body).filterMap (mapped (parts h c).ids)) with
    | none => rw [hread] at hmem; cases hmem
    | some covered =>
      rw [hread] at hmem
      exact ⟨id, _, covered, hid, hread, hmem⟩
  · exact .inr hscaffold

theorem IsGuardedAt.guarded {index : Nat} {kept : List (Row V)} {reply : Option (Row V)}
    (hcut : IsCutAt h c cut index kept reply) (hguard : IsGuardedAt h c cut index reply) :
    Guarded h c cut.fitted (place h c index) := by
  obtain ⟨noticed, rest, hfitted, -, hfollows⟩ := hcut.result (.inr hguard.position)
  refine ⟨fun hexit source hsource => ?_, hguard.keepFrom, hguard.budget⟩
  rcases hcut.kept_or_dropped (.inr hguard.position) hfollows hsource with ⟨row, hrow, hcarried⟩ | ⟨htake, hother⟩
  · exact .inl ⟨row, hfitted ▸ List.mem_append_right _ hrow, hcarried⟩
  · exact .inr (isCovered_spec (List.mem_of_mem_drop hsource) (hguard.covered hexit source htake hother))

theorem newest_position (p : Parts V) :
    (∃ row, p.body[(users h p).getLast?.getD 0]? = some row ∧ h.role row.value = "user") ∨
    (users h p).getLast?.getD 0 = 0 := by
  cases hlast : (users h p).getLast? with
  | none => exact .inr rfl
  | some index => exact .inl (mem_users (List.mem_of_getLast? hlast))

/-- A cut loses no row that is not stored; what it does not find by leaving whole turns it projects. -/
theorem survivalCut_safe {c : CutCall V} {cut : Cut V} (hcut : survivalCut h c = some cut) :
    ∃ chosen, Safe h c cut.fitted chosen ∧ (IsFallback h c ∨ Guarded h c cut.fitted chosen) := by
  rw [survivalCut] at hcut
  split at hcut
  · next found hfound =>
    cases hcut
    obtain ⟨index, kept, reply, hat, hguard⟩ := oldestCut_spec c _ _ (List.Subset.refl _) hfound
    exact ⟨place h c index, hat.safe (.inr hguard.position), .inr (hguard.guarded hat)⟩
  · next hnone =>
    split at hcut
    · cases hcut
    · next hwhole =>
      have hwhole : c.wholeTurns = false := Bool.eq_false_iff.mpr hwhole
      obtain ⟨kept, reply, hat⟩ := newestTurn_spec c (newest_position _) hcut
      have hcarrier : (parts h c).carrier = none := by simp [parts, hwhole]
      exact ⟨_, hat.safe (.inl hcarrier), .inl ⟨hwhole, hnone⟩⟩

end

/-! ## Two turns -/

/-- Rows of a role and a text, measured by their length, without summaries or projections. -/
def plainHost : Host (String × String) Unit where
  role row := row.1
  textContent row := some row.2
  contentLength row := row.2.length
  measure rows := (rows.map fun row => row.2.length).sum
  countTokens row := row.2.length
  isVerifiedScaffold _ := false
  isGenerated _ := false
  isCompletedReply _ := false
  carrierRemainder _ := none
  carrierSummary _ := ""
  splitCarrier row remainder := (row.1, remainder)
  userRow text := ("user", text)
  withNotice row notice := (row.1, row.2 ++ "\n\n" ++ notice)
  summaryIdentity _ row _ _ _ := row
  get _ := none
  storedRole _ := ""
  storedLength _ := 0
  projectMessage row _ _ := row
  projectLegacy row _ _ := row
  projectReply row _ _ := row
  nodeCovered _ := some []

def twoTurns (reason : String) (wholeTurns : Bool) (keepFrom : Option Nat) : CutCall (String × String) :=
  ⟨[("user", "old"), ("user", "new")], 0, 3, true, reason, fun _ => none, wholeTurns, keepFrom, none⟩

def newTurn : Cut (String × String) := ⟨[⟨some 1, ("user", "new")⟩], 1, [], false, noticeText 1 none none, none⟩

theorem survivalCut_safe_newTurn : ∃ chosen, Safe plainHost (twoTurns "threshold" true none) newTurn.fitted chosen ∧
    (IsFallback plainHost (twoTurns "threshold" true none) ∨
      Guarded plainHost (twoTurns "threshold" true none) newTurn.fitted chosen) :=
  survivalCut_safe (by decide +kernel)

/-- A cut that may project ignores what an exit fit must keep: the first turn is not covered, and it leaves. -/
theorem survivalCut_uncovered : ∃ cut, survivalCut plainHost (twoTurns "exit_fit:headroom" false (some 0)) = some cut ∧
    ¬ ∃ chosen, Safe plainHost (twoTurns "exit_fit:headroom" false (some 0)) cut.fitted chosen ∧
      Guarded plainHost (twoTurns "exit_fit:headroom" false (some 0)) cut.fitted chosen := by
  refine ⟨newTurn, by decide +kernel, ?_⟩
  rintro ⟨chosen, -, hguarded⟩
  have hold : (⟨some 0, ("user", "old")⟩ : Row (String × String)) ∈
      (twoTurns "exit_fit:headroom" false (some 0)).rows.drop
        (twoTurns "exit_fit:headroom" false (some 0)).lead := List.mem_cons_self
  rcases hguarded.covered (by decide) _ hold with ⟨row, hrow, hcarried⟩ | ⟨_, _, _, hid, -⟩ | hscaffold
  · -- a projection or a carrier is no row of the list
    rw [List.mem_singleton.mp hrow] at hcarried
    rcases hcarried with (hself | hprojection) | ⟨_, _, -, -, _, _, -, -, hreformed⟩
    · exact absurd hself (by decide)
    · exact absurd hprojection.1 (by decide)
    · exact absurd (congrArg Row.object hreformed) (by simp)
  · cases hid
  · cases hscaffold

end SurvivalFit
