import LcmX.ClassifierOrder
import LcmX.ClassifierTotal

/-!
# A recorded view comes back as itself

When the only eligible record is that of a view, the view is classified as its
own replay, whatever rows follow: the run of the whole record wins, every later
phase leaves it alone, and no cut reaches it. Its plan then writes nothing but the
same entries.
-/
namespace Classifier

open IngestLedger Fallible

/-- The entry of a row as the ledger keeps it: its digests, and for a row that is stored a binding
that agrees with it. -/
structure EntryFor (snapshot : Snapshot) (row : IncomingRow) (entry : ViewEntry) : Prop where
  identity : entry.identityDigest = some row.identityDigest
  stamp : entry.stampDigest = row.stampDigest
  uidset : entry.uidsetDigest = row.uidsetDigest
  plain : entry.isDescriptor = false
  unbound : row.neverStored = true → entry.ref = none
  bound : row.neverStored = false → ∃ b ∈ snapshot.bindings, entry.ref = some b.occId ∧ b.kept = true ∧
    b.identityDigest = row.identityDigest ∧ (∀ s ∈ row.stamp, s ∈ snapshot.stamps b) ∧
      (row.stamp = none → snapshot.stamps b = [])

/-- The only eligible record is the ingest record of the view. -/
structure RecordOf (snapshot : Snapshot) (view : List IncomingRow) (record : ViewRecord) : Prop where
  kind : record.kind = .ingest
  only : snapshot.records.filter ViewRecord.eligible = [record]
  entries : List.Forall₂ (EntryFor snapshot) view record.entries
  distinct : (record.entries.filterMap ViewEntry.ref).Nodup
  apart : ∀ row ∈ view, ∀ row' ∈ view, row.neverStored = true → row'.neverStored = false →
    row.identityDigest ≠ row'.identityDigest

namespace Context

variable {c : Context} {p q : Pass}

/-! ## The run of the whole record -/

theorem repeats_entryFor (hmode : c.mode = .off) {row : IncomingRow} {entry : ViewEntry}
    (h : EntryFor c.snapshot row entry) :
    c.repeats row entry = true := by
  simp [repeats, entryStampDigest, h.identity, h.plain, h.stamp, hmode]

theorem runLength_le (rows : List IncomingRow) (entries : List ViewEntry) :
    c.runLength rows entries ≤ entries.length := by
  induction rows generalizing entries with
  | nil => simp [runLength]
  | cons row rows ih =>
    cases entries with
    | nil => simp [runLength]
    | cons entry entries =>
      unfold runLength
      have hrest := ih entries
      split
      · rw [List.length_cons]
        omega
      · omega

theorem runLength_full (hmode : c.mode = .off) {rows : List IncomingRow} {entries : List ViewEntry}
    (h : List.Forall₂ (EntryFor c.snapshot) rows entries) (rest : List IncomingRow) :
    c.runLength (rows ++ rest) entries = entries.length := by
  induction h with
  | nil => cases rest <;> rfl
  | cons hentry _ ih =>
    rw [List.cons_append, runLength, if_pos (repeats_entryFor hmode hentry), ih]
    rfl

/-- `max` finds the element that is above all others. -/
theorem maxBy_unique {α : Type} {before : α → α → Bool} {l : List α} {a : α} (ha : a ∈ l)
    (hbest : ∀ x ∈ l, x ≠ a → before x a = true ∧ before a x = false) : maxBy before l = some a := by
  have hfold : ∀ (l : List α) (b : α), a ∈ b :: l → (∀ x ∈ b :: l, x ≠ a → before x a = true ∧ before a x = false) →
      l.foldl (fun best x => if before best x then x else best) b = a := by
    intro l
    induction l with
    | nil =>
      intro b hin _
      exact (List.mem_singleton.mp hin).symm
    | cons x l ih =>
      intro b hin hbest
      rw [List.foldl_cons]
      apply ih
      · split
        · next hbefore =>
          cases List.mem_cons.mp hin with
          | inl he =>
            subst he
            by_cases hx : x = a
            · rw [hx]
              exact List.mem_cons_self
            · rw [(hbest x (by simp) hx).2] at hbefore
              cases hbefore
          | inr hin => exact hin
        · next hbefore =>
          cases List.mem_cons.mp hin with
          | inl he => exact he ▸ List.mem_cons_self
          | inr hin =>
            cases List.mem_cons.mp hin with
            | inl he =>
              subst he
              by_cases hb : b = a
              · rw [hb]
                exact List.mem_cons_self
              · exact absurd (hbest b List.mem_cons_self hb).1 hbefore
            | inr hin => exact List.mem_cons_of_mem _ hin
      · intro y hy
        apply hbest
        split at hy
        · exact List.mem_cons_of_mem _ hy
        · cases List.mem_cons.mp hy with
          | inl he => exact he ▸ List.mem_cons_self
          | inr hin => exact List.mem_cons_of_mem _ (List.mem_cons_of_mem _ hin)
  cases l with
  | nil => cases ha
  | cons b l => exact congrArg some (hfold l b ha hbest)

/-! ## Every row is taken -/

/-- A row that is stored is taken for its own binding. -/
theorem runRow_entryFor (hmode : c.mode = .off) {row : IncomingRow} {entry : ViewEntry}
    (h : EntryFor c.snapshot row entry)
    (hstored : row.neverStored = false) (hfree : ∀ id ∈ entry.ref, Target.occ id ∉ p.used) :
    ∃ id ev, entry.ref = some id ∧ c.runRow row entry p = ((p.accept row.index (.occ id) ev).1, true) := by
  obtain ⟨b, hb, href, hkept, -, hstamps, hnone⟩ := h.bound hstored
  have hrole : b.role ≠ none := by
    simp only [Binding.kept, decide_eq_true_eq] at hkept
    exact Option.isSome_iff_ne_none.mp hkept.2
  have hunused : ¬ (b.role = none ∨ Target.occ b.occId ∈ p.used) := by
    rintro (hr | hu)
    · exact hrole hr
    · exact hfree _ href hu
  have hrevision : c.oldRevision b = false := by simp [oldRevision, hmode]
  have hagree : c.uidsDisagree row b = false := by simp [uidsDisagree, hmode]
  unfold runRow
  rw [hstored, if_neg (by simp), entryTarget, h.plain, if_neg (by simp), href]
  simp only [Option.map_some, binding?_of_mem hb, if_neg hunused, hrevision, hagree]
  by_cases hkeyed : c.positive row b = true ∨ c.currentUid row b = true
  · rw [if_pos hkeyed]
    exact ⟨_, _, rfl, rfl⟩
  · -- Without a stamp that both have, neither has one that counts.
    have hunkeyed : ¬ (c.incomingKey row = true ∨ c.storedKey b = true) := by
      cases hignore : c.ignoreStamps with
      | true => simp [incomingKey, storedKey, knownStamp, hignore, hmode]
      | false =>
        cases hstamp : row.stamp with
        | none => simp [incomingKey, storedKey, knownStamp, hignore, hmode, hstamp, hnone hstamp]
        | some s =>
          refine absurd (.inl ?_) hkeyed
          simp [positive, knownStamp, hignore, hstamp, hstamps s hstamp]
    rw [if_neg hkeyed, if_neg hunkeyed]
    exact ⟨_, _, rfl, rfl⟩

theorem runRows_cons {row : IncomingRow} {entry : ViewEntry} (h : c.runRow row entry p = (q, true))
    (pairs : List (IncomingRow × ViewEntry)) :
    c.runRows ((row, entry) :: pairs) p = ((c.runRows pairs q).1, (c.runRows pairs q).2 + 1) := by
  simp only [runRows, h, if_true]

/-- The rows of a run whose entries are theirs are all taken, each for its own reference. -/
theorem runRows_entryFor (hmode : c.mode = .off) (pairs : List (IncomingRow × ViewEntry))
    (hentry : ∀ x ∈ pairs, EntryFor c.snapshot x.1 x.2) (hindex : (pairs.map fun x => x.1.index).Nodup)
    (hrefs : (pairs.filterMap fun x => x.2.ref).Nodup) :
    ∀ p : Pass, (∀ x ∈ pairs, x.1.neverStored = false → (p.rows x.1.index).verdict = .new) →
      (∀ x ∈ pairs, ∀ id ∈ x.2.ref, Target.occ id ∉ p.used) →
      (c.runRows pairs p).2 = pairs.length ∧ ∀ x ∈ pairs, x.1.neverStored = false →
        ((c.runRows pairs p).1.rows x.1.index).verdict = .replay ∧
          ((c.runRows pairs p).1.rows x.1.index).target = x.2.ref.map .occ := by
  induction pairs with
  | nil => exact fun p _ _ => ⟨rfl, by simp⟩
  | cons x pairs ih =>
    obtain ⟨row, entry⟩ := x
    intro p hnew hfree
    replace ih := ih (fun x hx => hentry x (List.mem_cons_of_mem _ hx))
    rw [List.map_cons, List.nodup_cons] at hindex
    cases hstored : row.neverStored with
    | true =>
      have hunbound : entry.ref = none := (hentry _ List.mem_cons_self).unbound hstored
      rw [List.filterMap_cons_none (f := fun x : IncomingRow × ViewEntry => x.2.ref) hunbound] at hrefs
      obtain ⟨hcount, hrest⟩ := ih hindex.2 hrefs p (fun x hx => hnew x (List.mem_cons_of_mem _ hx))
        (fun x hx => hfree x (List.mem_cons_of_mem _ hx))
      have hrow : c.runRow row entry p = (p, true) := by
        unfold runRow
        rw [if_pos hstored]
      rw [runRows_cons hrow, hcount]
      refine ⟨rfl, ?_⟩
      intro x hx hxstored
      cases List.mem_cons.mp hx with
      | inl he =>
        subst he
        rw [hstored] at hxstored
        cases hxstored
      | inr hin => exact hrest x hin hxstored
    | false =>
      obtain ⟨id, ev, href, hrow⟩ :=
        runRow_entryFor hmode (hentry _ List.mem_cons_self) hstored (hfree _ List.mem_cons_self)
      have hunused := hfree _ List.mem_cons_self id href
      rw [accept_free hunused] at hrow
      rw [List.filterMap_cons_some (f := fun x : IncomingRow × ViewEntry => x.2.ref) href, List.nodup_cons] at hrefs
      generalize hnext : ({ p with
        rows := Function.update p.rows row.index { verdict := .replay, evidence := ev, target := some (.occ id) }
        used := .occ id :: p.used } : Pass) = next at hrow
      have hother : ∀ x ∈ pairs, x.1.index ≠ row.index := by
        intro x hx heq
        exact hindex.1 (List.mem_map.mpr ⟨x, hx, heq⟩)
      have hnextNew : ∀ x ∈ pairs, x.1.neverStored = false → (next.rows x.1.index).verdict = .new := by
        intro x hx hxstored
        rw [← hnext]
        dsimp only
        rw [Function.update_of_ne (hother x hx)]
        exact hnew x (List.mem_cons_of_mem _ hx) hxstored
      obtain ⟨hcount, hrest⟩ := ih hindex.2 hrefs.2 next hnextNew (by
        intro x hx id' hid'
        rw [← hnext, List.mem_cons, not_or]
        refine ⟨?_, hfree x (List.mem_cons_of_mem _ hx) id' hid'⟩
        rintro heq
        cases heq
        exact hrefs.1 (List.mem_filterMap.mpr ⟨x, hx, hid'⟩))
      rw [runRows_cons hrow, hcount]
      refine ⟨rfl, ?_⟩
      intro x hx hxstored
      cases List.mem_cons.mp hx with
      | inl he =>
        subst he
        -- The later rows are other rows, so this one stays as it is.
        have hcore := (runRows_grows (c := c) pairs hindex.2 next hnextNew).settled (i := row.index) (by
          rw [← hnext]
          simp)
        obtain ⟨hverdict, -, htarget⟩ := RowVerdict.core_eq hcore
        rw [hverdict, htarget, ← hnext, href]
        simp
      | inr hin => exact hrest x hin hxstored

section Run

variable {record : ViewRecord} {pre rest : List IncomingRow} (hmode : c.mode = .off) (hview : Indexed c.view)
  (hpre : c.view = pre ++ rest) (hrecord : RecordOf c.snapshot pre record)

include hpre hrecord in
theorem entryFor_get {n : Nat} {row : IncomingRow} {entry : ViewEntry} (hrow : c.view[n]? = some row)
    (hentry : record.entries[n]? = some entry) : EntryFor c.snapshot row entry := by
  have hlength := hrecord.entries.length_eq
  obtain ⟨hn, rfl⟩ := List.getElem?_eq_some_iff.mp hentry
  have hn' : n < pre.length := hlength ▸ hn
  rw [hpre, List.getElem?_append_left hn', List.getElem?_eq_getElem hn', Option.some.injEq] at hrow
  subst hrow
  exact hrecord.entries.get hn' hn

include hpre hrecord in
theorem entries_length_le : record.entries.length ≤ c.view.length := by
  rw [hpre, List.length_append, ← hrecord.entries.length_eq]
  omega

include hrecord in
theorem eligible_record {record' : ViewRecord} :
    record' ∈ c.snapshot.records ∧ record'.eligible = true ↔ record' = record := by
  rw [← List.mem_filter, hrecord.only, List.mem_singleton]

section First

variable {sys post : List IncomingRow} {first : IncomingRow} (hsplit : pre = sys ++ first :: post)
  (hsys : ∀ row ∈ sys, row.neverStored = true) (hfirst : first.neverStored = false)

include hpre hsplit in
theorem view_first : c.view[sys.length]? = some first := by
  rw [hpre, hsplit, List.append_assoc, List.getElem?_append_right (le_refl _), Nat.sub_self]
  rfl

include hview hpre hsplit hsys hfirst in
theorem starts_first : ∃ more, c.starts = sys.length :: more := by
  have hnone : (sys.filter fun r => ¬ r.neverStored) = [] := by
    rw [List.filter_eq_nil_iff]
    intro row hrow
    simp [hsys row hrow]
  unfold starts
  rw [hpre, hsplit, List.append_assoc, List.filter_append, hnone, List.nil_append, List.cons_append, List.filter_cons,
    if_pos (by simp [hfirst]), List.map_cons, List.take_succ_cons, hview _ _ (view_first hpre hsplit)]
  exact ⟨_, rfl⟩

include hpre hrecord hsplit hsys hfirst in
/-- An entry before the first stored row is a system row's, whose digest is another one. -/
theorem runLength_system {j : Nat} (hj : j < sys.length) :
    c.runLength (c.view.drop sys.length) (record.entries.drop j) = 0 := by
  have hlength := hrecord.entries.length_eq
  have hjlt : j < record.entries.length := by
    rw [← hlength, hsplit, List.length_append]
    omega
  have hold : c.view[j]? = some sys[j] := by
    rw [hpre, hsplit, List.append_assoc, List.getElem?_append_left hj, List.getElem?_eq_getElem hj]
  have hentry := entryFor_get hpre hrecord hold (List.getElem?_eq_getElem hjlt)
  have hsystem := List.getElem_mem hj
  have hapart := hrecord.apart sys[j] (by rw [hsplit]; exact List.mem_append_left _ hsystem) first
    (by rw [hsplit]; simp)
    (hsys _ hsystem) hfirst
  obtain ⟨hviewLt, hviewGet⟩ := List.getElem?_eq_some_iff.mp (view_first hpre hsplit)
  rw [List.drop_eq_getElem_cons hviewLt, List.drop_eq_getElem_cons hjlt, hviewGet, runLength, if_neg]
  simp only [repeats, hentry.identity, Option.some.injEq, decide_eq_true_eq]
  exact fun h => hapart h.1

include hmode hview hpre hrecord hsplit hsys hfirst in
/-- From the first stored row on, the record repeats the view to its end, and no other run is as long. -/
theorem chooseRun_record :
    c.chooseRun c.starts = some (sys.length, ⟨record.entries.length - sys.length, record, sys.length⟩) := by
  have hlt : sys.length < record.entries.length := by
    rw [← hrecord.entries.length_eq, hsplit, List.length_append, List.length_cons]
    omega
  have hfull : c.runLength (c.view.drop sys.length)
      (record.entries.drop sys.length) = record.entries.length - sys.length := by
    rw [hpre, List.drop_append_of_le_length (by rw [hrecord.entries.length_eq]; omega),
      runLength_full hmode (List.forall₂_drop sys.length hrecord.entries) rest, List.length_drop]
  have hmax : maxBy RunChoice.before (c.runsFrom sys.length) =
      some ⟨record.entries.length - sys.length, record, sys.length⟩ := by
    obtain ⟨hmem, helig⟩ := (eligible_record hrecord).mpr rfl
    apply maxBy_unique
    · exact mem_runsFrom.mpr ⟨hmem, helig, hlt, hfull.symm, by dsimp only; omega⟩
    · intro choice hchoice hne
      obtain ⟨hin, helig', hj, hk, hpos⟩ := mem_runsFrom.mp hchoice
      obtain ⟨k, record', j⟩ := choice
      dsimp only at hin helig' hj hk hpos
      obtain rfl := (eligible_record hrecord).mp ⟨hin, helig'⟩
      -- An earlier entry repeats nothing; a later one leaves less of the record.
      have hshorter : k < record'.entries.length - sys.length := by
        obtain hbefore | heq | hafter := Nat.lt_trichotomy j sys.length
        · rw [runLength_system hpre hrecord hsplit hsys hfirst hbefore] at hk
          omega
        · subst heq
          rw [hfull] at hk
          subst hk
          exact absurd rfl hne
        · have hle := runLength_le (c := c) (c.view.drop sys.length) (record'.entries.drop j)
          rw [List.length_drop] at hle
          omega
      simp only [RunChoice.before, decide_eq_true_eq, decide_eq_false_iff_not]
      omega
  obtain ⟨more, hstarts⟩ := starts_first hview hpre hsplit hsys hfirst
  rw [hstarts, chooseRun, hmax]

end First

include hpre hrecord in
/-- The rows of a run over the record from its entry `s` on are taken with their own entries. -/
theorem runPairs_record (s : Nat) (hs : s ≤ record.entries.length) :
    (c.runPairs s ⟨record.entries.length - s, record, s⟩).length = record.entries.length - s ∧
      (∀ x ∈ c.runPairs s ⟨record.entries.length - s, record, s⟩, EntryFor c.snapshot x.1 x.2) ∧
      ((c.runPairs s ⟨record.entries.length - s, record, s⟩).filterMap fun x => x.2.ref).Nodup := by
  have hle := entries_length_le hpre hrecord
  refine ⟨?_, ?_, ?_⟩
  · simp only [runPairs, List.length_take, List.length_zip, List.length_drop]
    omega
  · intro x hx
    obtain ⟨m, hm⟩ := List.mem_iff_getElem?.mp hx
    obtain ⟨-, hxrow, hxentry⟩ := getElem?_runPairs hm
    exact entryFor_get hpre hrecord hxrow hxentry
  · have hzip : ((c.view.drop s).zip (record.entries.drop s)).map Prod.snd = record.entries.drop s :=
      List.map_snd_zip (by simp only [List.length_drop]; omega)
    have hsub : ((c.runPairs s ⟨record.entries.length - s, record, s⟩).map Prod.snd).Sublist record.entries := by
      rw [runPairs, List.map_take, hzip]
      exact (List.take_sublist _ _).trans (List.drop_sublist _ _)
    have hnodup := hrecord.distinct.sublist (hsub.filterMap ViewEntry.ref)
    rwa [List.filterMap_map] at hnodup

include hmode hview hpre hrecord in
/-- The run takes every recorded row that is stored, and ends with the record. -/
theorem runSearch_took {n : Nat} {row : IncomingRow} {entry : ViewEntry} (hrow : c.view[n]? = some row)
    (hentry : record.entries[n]? = some entry) (hstored : row.neverStored = false) :
    ((c.runSearch c.initial).rows n).verdict = .replay ∧
      ((c.runSearch c.initial).rows n).target = entry.ref.map .occ ∧
      ∀ run ∈ (c.runSearch c.initial).run, run.i + run.k = record.entries.length := by
  have hlength := hrecord.entries.length_eq
  have hn : n < record.entries.length := (List.getElem?_eq_some_iff.mp hentry).1
  have hmem : row ∈ pre := by
    rw [hpre, List.getElem?_append_left (by omega)] at hrow
    exact List.mem_of_getElem? hrow
  -- The first recorded row that is stored.
  obtain ⟨sys, first, post, hsplit, hsys, hfirst⟩ : ∃ sys first post, pre = sys ++ first :: post ∧
      (∀ r ∈ sys, r.neverStored = true) ∧ first.neverStored = false := by
    cases hfilter : pre.filter fun r => ¬ r.neverStored with
    | nil =>
      have hall := List.filter_eq_nil_iff.mp hfilter row hmem
      simp [hstored] at hall
    | cons first more =>
      obtain ⟨sys, post, hsplit, hsys, hfirst, -⟩ := List.filter_eq_cons_iff.mp hfilter
      exact ⟨sys, first, post, hsplit, fun r hr => by simpa using hsys r hr, by simpa using hfirst⟩
  have hsysn : sys.length ≤ n := by
    by_contra hlt
    rw [hpre, hsplit, List.append_assoc, List.getElem?_append_left (by omega)] at hrow
    rw [hsys row (List.mem_of_getElem? hrow)] at hstored
    cases hstored
  have hchoice := chooseRun_record hmode hview hpre hrecord hsplit hsys hfirst
  obtain ⟨hpairsLength, hpairsFor, hrefs⟩ := runPairs_record hpre hrecord sys.length (by omega)
  have hpairs : (c.runPairs sys.length ⟨record.entries.length - sys.length, record, sys.length⟩)[n - sys.length]? =
      some (row, entry) := by
    rw [runPairs, List.getElem?_take_of_lt (by dsimp only; omega), List.getElem?_zip_eq_some, List.getElem?_drop,
      List.getElem?_drop, Nat.add_sub_cancel' hsysn]
    exact ⟨hrow, hentry⟩
  generalize (⟨record.entries.length - sys.length, record, sys.length⟩ : RunChoice) = choice at *
  obtain ⟨hcount, hrows⟩ :=
    runRows_entryFor hmode (c.runPairs sys.length choice) hpairsFor (nodup_runPairs hview _ _) hrefs
    c.initial
    (by
      intro x hx hxstored
      obtain ⟨m, hm⟩ := List.mem_iff_getElem?.mp hx
      rw [initial_verdict hview (List.mem_of_getElem? (getElem?_runPairs hm).2.1), hxstored]
      rfl)
    (fun _ _ _ _ => List.not_mem_nil)
  have hrowTaken := hrows _ (List.mem_of_getElem? hpairs) hstored
  rw [hview n row hrow] at hrowTaken
  have hpos : 0 < (c.runRows (c.runPairs sys.length choice) c.initial).2 := by
    rw [hcount, hpairsLength]
    omega
  rw [runSearch_some _ hchoice]
  dsimp only
  rw [if_pos hpos]
  refine ⟨hrowTaken.1, hrowTaken.2, ?_⟩
  intro run hrun
  cases hrun
  dsimp only
  rw [hcount, hpairsLength]
  omega

end Run

/-! ## The later phases -/

theorem decideRows_skip (hview : Indexed c.view) {decided : Pass} (h : c.decideRows c.initial = .ok decided)
    {row : IncomingRow} (hrow : row ∈ c.view) (hnever : row.neverStored = true) :
    (decided.rows row.index).verdict = .skip := by
  have hinitial := initial_verdict hview hrow
  rw [hnever, if_pos rfl] at hinitial
  obtain ⟨q, hgrows, hsame, -, -⟩ := runSearch_grows hview
  have hsearched : ((c.runSearch c.initial).rows row.index).verdict = .skip := by
    rw [hsame.verdict, ← hinitial]
    exact (RowVerdict.core_eq (hgrows.settled (by rw [hinitial]; decide))).1
  have hcore := (decideRows_settled h).2 row.index (by rw [hsearched]; decide)
  rw [← hsearched]
  exact (RowVerdict.core_eq hcore).1

/-! ## No cut reaches the record -/

section Cuts

variable {record : ViewRecord} {pre rest : List IncomingRow} (hmode : c.mode = .off) (hview : Indexed c.view)
  (hpre : c.view = pre ++ rest) (hrecord : RecordOf c.snapshot pre record) (hsegmented : Segmented c.view)
  (hcalls : ∀ row ∈ c.view, row.toolSegment ≠ none → row.neverStored = false)
  (hmore : ∀ row ∈ c.view, pre.length ≤ row.index → ∀ start ∈ row.toolSegment, pre.length ≤ start)
  {decided : Pass} (hdecided : c.decideRows c.initial = .ok decided)

include hmode hview hpre hrecord hdecided in
theorem decideRows_took {n : Nat} {row : IncomingRow} {entry : ViewEntry} (hrow : c.view[n]? = some row)
    (hentry : record.entries[n]? = some entry) (hstored : row.neverStored = false) :
    (decided.rows n).verdict = .replay ∧ (decided.rows n).target = entry.ref.map .occ ∧
      ∀ run ∈ decided.run, run.i + run.k = pre.length := by
  obtain ⟨hverdict, htarget, hrun⟩ := runSearch_took hmode hview hpre hrecord hrow hentry hstored
  obtain ⟨hsame, hsettled⟩ := decideRows_settled hdecided
  obtain ⟨hverdict', -, htarget'⟩ := RowVerdict.core_eq (hsettled n (by rw [hverdict]; decide))
  rw [hsame, hrecord.entries.length_eq]
  exact ⟨hverdict'.trans hverdict, htarget'.trans htarget, hrun⟩

include hmode hview hpre hrecord hsegmented hcalls hmore hdecided in
/-- The segments that reach into the record lie in it, and are complete. -/
theorem segment_complete {start i : Nat} (hi : i ∈ c.segment start) (hlt : i < pre.length) :
    c.complete decided start = true := by
  have hlength := hrecord.entries.length_eq
  have hstart : start < pre.length := by
    obtain ⟨row, hrow, hsegment⟩ := (mem_segment hview).mp hi
    have hindex := hview i row hrow
    have hcases := hsegmented row (List.mem_of_getElem? hrow) start hsegment
    omega
  unfold complete
  rw [List.all_eq_true]
  intro j hj
  obtain ⟨row, hrow, hsegment⟩ := (mem_segment hview).mp hj
  have hindex := hview j row hrow
  have hjlt : j < pre.length := by
    by_contra hge
    have hle := hmore row (List.mem_of_getElem? hrow) (by omega) start hsegment
    omega
  have hstored := hcalls row (List.mem_of_getElem? hrow) (by simp [hsegment])
  have hentry : record.entries[j]? = some record.entries[j] := List.getElem?_eq_getElem (by omega)
  simp [(decideRows_took hmode hview hpre hrecord hdecided hrow hentry hstored).1]

include hmode hview hpre hrecord hsegmented hcalls hmore hdecided in
/-- At the end a recorded row is a replay of what it was recorded for. -/
theorem finish_took {n : Nat} {row : IncomingRow} {entry : ViewEntry} (hrow : c.view[n]? = some row)
    (hentry : record.entries[n]? = some entry) (hstored : row.neverStored = false) :
    ((c.finish decided).rows n).verdict = .replay ∧ ((c.finish decided).rows n).target = entry.ref.map .occ := by
  obtain ⟨hverdict, htarget, hrun⟩ := decideRows_took hmode hview hpre hrecord hdecided hrow hentry hstored
  have hn : n < pre.length := by
    rw [hrecord.entries.length_eq]
    exact (List.getElem?_eq_some_iff.mp hentry).1
  have hcomplete : ∀ {start i : Nat}, i ∈ c.segment start → i < pre.length → c.complete decided start = true :=
    fun hi hlt => segment_complete hmode hview hpre hrecord hsegmented hcalls hmore hdecided hi hlt
  -- The segments that are cut have no row in the run.
  have hcut : c.runCut decided = [] := by
    unfold runCut
    split
    · rfl
    · next run hrun' =>
      have hnone : c.cutInRun run (c.segmentStarts.filter fun start => ¬ c.complete decided start) = [] := by
        rw [cutInRun, List.filter_eq_nil_iff]
        intro start hstart hany
        rw [List.any_eq_true] at hany
        obtain ⟨i, hi, hin⟩ := hany
        rw [decide_eq_true_eq, hrun run hrun'] at hin
        have hyes := hcomplete hi hin.2
        simp [hyes] at hstart
      dsimp only
      rw [hnone]
      rfl
  have honce := (decided_once hview hdecided).1
  have hfinal : ((c.finish decided).rows n).verdict = .replay := by
    rw [(finish_planned decided).1.verdict, cuts_spec hview honce]
    exact ⟨hverdict, fun start hi => hcomplete hi hn, by rw [hcut]; exact List.not_mem_nil⟩
  exact ⟨hfinal, (RowVerdict.core_eq (finish_replay hfinal)).2.2.trans htarget⟩

omit hdecided in
include hmode hview hpre hrecord hsegmented hcalls hmore in
/-- After a pass, a recorded row is skipped or replays its own reference. -/
theorem execute_took {r : Pass} (hr : c.execute = .ok r) {n : Nat} {row : IncomingRow} {entry : ViewEntry}
    (hrow : c.view[n]? = some row) (hentry : record.entries[n]? = some entry) :
    (row.neverStored = true → (r.rows n).verdict = .skip) ∧
      (row.neverStored = false → (r.rows n).verdict = .replay ∧ (r.rows n).target = entry.ref.map .occ) := by
  obtain ⟨decided, hdecided, rfl⟩ := execute_finish hr
  constructor
  · intro hnever
    have hskip := decideRows_skip hview hdecided (List.mem_of_getElem? hrow) hnever
    rw [hview n row hrow] at hskip
    have hcut := (cuts_cutting (c := c) decided).1.core n
    rw [(finish_planned decided).1.verdict, ← hskip]
    cases hcut with
    | inl hsame => exact (RowVerdict.core_eq hsame).1
    | inr hcut =>
      rw [hskip] at hcut
      cases hcut.1
  · exact finish_took hmode hview hpre hrecord hsegmented hcalls hmore hdecided hrow hentry

end Cuts

theorem RecordOf.refsBound {pre : List IncomingRow} {record : ViewRecord} (h : RecordOf c.snapshot pre record) :
    RefsBound c := by
  intro record' hmem helig entry hentry id htarget
  obtain rfl := (eligible_record h).mp ⟨hmem, helig⟩
  obtain ⟨n, hn⟩ := List.mem_iff_getElem?.mp hentry
  obtain ⟨hlt, rfl⟩ := List.getElem?_eq_some_iff.mp hn
  have hfor := h.entries.get (h.entries.length_eq ▸ hlt) hlt
  have href := (entryTarget_occ htarget).2
  cases hstored : (pre.get ⟨n, h.entries.length_eq ▸ hlt⟩).neverStored with
  | true =>
    have hunbound := hfor.unbound hstored
    rw [List.get_eq_getElem, href] at hunbound
    cases hunbound
  | false =>
    obtain ⟨b, hb, hbound, -⟩ := hfor.bound hstored
    rw [List.get_eq_getElem, href] at hbound
    cases hbound
    rw [binding?_of_mem hb]
    exact nofun

/-! ## Nothing is written -/

/-- All that a plan writes besides the entries. -/
def bare (plan : WritePlan) : WritePlan := { plan with entries := [] }

/-- A row that is skipped, or replays a binding that has its stamp. -/
def Silent (c : Context) (row : IncomingRow) (v : RowVerdict) : Prop :=
  v.verdict = .skip ∨ (v.verdict = .replay ∧ ∃ b ∈ c.snapshot.bindings, v.target = some (.occ b.occId) ∧
    ∀ s ∈ row.stamp, s ∈ c.snapshot.stamps b)

theorem Silent.congr {row : IncomingRow} {v w : RowVerdict} (h : Silent c row v)
    (hcore : w.core = v.core) : Silent c row w := by
  obtain ⟨hverdict, -, htarget⟩ := RowVerdict.core_eq hcore
  unfold Silent
  rw [hverdict, htarget]
  exact h

theorem Silent.not_new {row : IncomingRow} {v : RowVerdict} (h : Silent c row v) : v.verdict ≠ .new := by
  cases h with
  | inl hskip =>
    rw [hskip]
    decide
  | inr hreplay =>
    rw [hreplay.1]
    decide

theorem EntryFor.silent {row : IncomingRow} {entry : ViewEntry} {v : RowVerdict} (h : EntryFor c.snapshot row entry)
    (hnever : row.neverStored = true → v.verdict = .skip)
    (hstored : row.neverStored = false → v.verdict = .replay ∧ v.target = entry.ref.map .occ) : Silent c row v := by
  cases hkept : row.neverStored with
  | true => exact .inl (hnever hkept)
  | false =>
    obtain ⟨b, hb, href, -, -, hstamps, -⟩ := h.bound hkept
    obtain ⟨hverdict, htarget⟩ := hstored hkept
    rw [href] at htarget
    exact .inr ⟨hverdict, b, hb, htarget, hstamps⟩

theorem planStamp_silent {row : IncomingRow} {b : Binding} (h : ∀ s ∈ row.stamp, s ∈ c.snapshot.stamps b)
    (ev : Option Evidence) (plan : WritePlan) : c.planStamp row b ev plan = plan := by
  unfold planStamp
  split
  · next stamp hstamp => rw [if_neg fun hnot => hnot.1 (h stamp hstamp)]
  · rfl

/-- The plan of a silent row is its entry. -/
theorem planRow_silent (hmode : c.mode = .off) (slots : List (Option Bytes × Option Target))
    (s : Planner) (row : IncomingRow)
    (h : Silent c row (s.pass.rows row.index)) :
    bare (c.planRow slots s row).pass.plan = bare s.pass.plan := by
  unfold planRow
  dsimp only
  cases h with
  | inl hskip =>
    rw [hskip]
    rfl
  | inr hreplay =>
    obtain ⟨hverdict, b, hb, htarget, hstamps⟩ := hreplay
    rw [hverdict, if_neg (by decide)]
    dsimp only
    rw [planReplay, htarget]
    dsimp only
    rw [binding?_of_mem hb]
    dsimp only
    rw [planStamp_silent hstamps, if_neg (by simp [hmode]), planConstituents, if_neg (by simp [hmode])]
    rfl

theorem planRows_silent (hmode : c.mode = .off) (slots : List (Option Bytes × Option Target))
    (rows : List IncomingRow) :
    ∀ s : Planner, (∀ row ∈ rows, Silent c row (s.pass.rows row.index)) →
      bare (rows.foldl (c.planRow slots) s).pass.plan = bare s.pass.plan := by
  induction rows with
  | nil => exact fun s _ => rfl
  | cons row rows ih =>
    intro s h
    have hsame := (planRow_planned (c := c) slots s row).toSameCore
    rw [List.foldl_cons, ih, planRow_silent hmode slots s row (h row List.mem_cons_self)]
    intro r hr
    exact (h r (List.mem_cons_of_mem _ hr)).congr (hsame.core r.index)

theorem finish_silent (hmode : c.mode = .off) (h : ∀ row ∈ c.view, Silent c row ((c.finish p).rows row.index)) :
    bare (c.finish p).plan = bare p.plan := by
  have hsame := (finish_planned (c := c) p).1
  rw [← (cuts_cutting (c := c) p).1.plan]
  apply planRows_silent hmode
  intro row hrow
  exact (h row hrow).congr (hsame.core row.index).symm

theorem execute_silent (hmode : c.mode = .off) (hview : Indexed c.view) {r : Pass} (hr : c.execute = .ok r)
    (h : ∀ row ∈ c.view, Silent c row (r.rows row.index)) : bare r.plan = {} := by
  obtain ⟨decided, hdecided, rfl⟩ := execute_finish hr
  rw [finish_silent hmode h, (decided_once hview hdecided).2]
  rfl

end Context

/-! ## Views that go on -/

theorem buildRows_append (h : Helpers) (salt : Bytes) (neverStored : Option (Message → Bool))
    (messages more : List Message) :
    ∀ start calls, ∃ rest, buildRows h salt neverStored start calls (messages ++ more) =
      buildRows h salt neverStored start calls messages ++ rest := by
  induction messages with
  | nil => exact fun start calls => ⟨_, rfl⟩
  | cons m messages ih =>
    intro start calls
    obtain ⟨rest, hrest⟩ := ih (start + 1) (nextSegment start m calls).2
    exact ⟨rest, by rw [List.cons_append, buildRows, hrest, buildRows, List.cons_append]⟩

theorem neverStored_buildRows (h : Helpers) (salt : Bytes) (messages : List Message) :
    ∀ start calls, ∀ row ∈ buildRows h salt none start calls messages,
      row.neverStored = decide (row.role = "system") := by
  induction messages with
  | nil =>
    intro start calls row hrow
    cases hrow
  | cons m messages ih =>
    intro start calls row hrow
    rw [buildRows] at hrow
    cases List.mem_cons.mp hrow with
    | inl he =>
      subst he
      rfl
    | inr hin => exact ih _ _ row hin

theorem stored_of_toolSegment {h : Helpers} {salt : Bytes} {messages : List Message} {row : IncomingRow}
    (hrow : row ∈ buildView h salt messages none) (hsegment : row.toolSegment ≠ none) : row.neverStored = false := by
  obtain ⟨start, hstart⟩ := Option.ne_none_iff_exists'.mp hsegment
  rw [neverStored_buildRows h salt messages 0 (fun _ => []) row hrow]
  cases segmented_buildView h salt messages none row hrow start hstart with
  | inl htool => simp [htool.1]
  | inr hassistant => simp [hassistant.1]

/-- A planned entry as a record holds it; the entry of a new row waits for its occurrence. -/
def PlannedEntry.toEntry (e : PlannedEntry) : Option ViewEntry :=
  match e.ref with
  | none => some ⟨some e.identityDigest, e.stampDigest, e.uidsetDigest, none, e.isDescriptor⟩
  | some (.bound (.occ id)) => some ⟨some e.identityDigest, e.stampDigest, e.uidsetDigest, some id, e.isDescriptor⟩
  | _ => none

theorem toEntry_plannedEntry {snapshot : Snapshot} {row : IncomingRow} {entry : ViewEntry} {v : RowVerdict}
    (h : EntryFor snapshot row entry) (hnever : row.neverStored = true → v.verdict = .skip)
    (hstored : row.neverStored = false → v.verdict = .replay ∧ v.target = entry.ref.map .occ) :
    (Context.plannedEntry row v).toEntry = some entry := by
  obtain ⟨identity, stamp, uidset, ref, isDescriptor⟩ := entry
  obtain ⟨hidentity, hstamp, huidset, hplain, hunbound, hbound⟩ := h
  dsimp only at hidentity hstamp huidset hplain hunbound hbound hstored
  subst hidentity hstamp huidset hplain
  cases hrow : row.neverStored with
  | true => simp [Context.plannedEntry, Context.rowRef, PlannedEntry.toEntry, hnever hrow, hunbound hrow]
  | false =>
    obtain ⟨b, -, href, -⟩ := hbound hrow
    obtain ⟨hverdict, htarget⟩ := hstored hrow
    rw [href] at htarget
    simp [Context.plannedEntry, Context.rowRef, PlannedEntry.toEntry, hverdict, htarget, href, Context.isDescriptor]

/-- A view whose record is the only eligible one is its own replay, whatever follows it: each stored row replays its own
reference and plans its own entry again. With nothing after it, nothing else is written. -/
theorem replay_fixpoint {helpers : Helpers} {salt : Bytes} {messages more : List Message} {snapshot : Snapshot}
    {oracle : Oracle} {record : ViewRecord} (hrecord : RecordOf snapshot (buildView helpers salt messages none) record)
    (hmore : ∀ row ∈ buildView helpers salt (messages ++ more) none, messages.length ≤ row.index →
      ∀ start ∈ row.toolSegment, messages.length ≤ start) :
    (snapshot.Ordered →
      ∃ result, classify helpers (buildView helpers salt (messages ++ more) none) snapshot oracle .off = .ok result) ∧
    ∀ result, classify helpers (buildView helpers salt (messages ++ more) none) snapshot oracle .off = .ok result →
      (∀ (n : Nat) (row : IncomingRow) (entry : ViewEntry), (buildView helpers salt messages none)[n]? = some row →
        record.entries[n]? = some entry →
          (row.neverStored = false → ∃ v id, result.rows[n]? = some v ∧ v.verdict = .replay ∧ entry.ref = some id ∧
            v.target = some (.occ id)) ∧
          ∃ planned, result.writes.entries[n]? = some planned ∧ planned.toEntry = some entry) ∧
      (more = [] → (∀ v ∈ result.rows, v.verdict ≠ .new) ∧ result.writes.placements = [] ∧
      result.writes.altStamps = [] ∧
        result.writes.emissionStamps = [] ∧ result.writes.uidBindings = [] ∧ result.writes.adoptions = []) := by
  obtain ⟨rest, hpre⟩ := buildRows_append helpers salt none messages more 0 fun _ => []
  change buildView helpers salt (messages ++ more) none = buildView helpers salt messages none ++ rest at hpre
  have hview := indexed_buildView helpers salt (messages ++ more) none
  have hsegmented := segmented_buildView helpers salt (messages ++ more) none
  have hlength := length_buildView helpers salt messages none
  rw [← hlength] at hmore
  constructor
  · intro hordered
    exact classify_total (by decide) hview hordered
      (Context.RecordOf.refsBound (c := firstContext helpers _ snapshot oracle .off) hrecord)
  · intro result h
    obtain ⟨r, hr, hrows, -, -, hwrites⟩ := classify_pass h
    obtain ⟨-, hentries⟩ := execute_once (c := finalContext helpers _ snapshot oracle .off) hview hr
    have htook := fun {n : Nat} {row : IncomingRow} {entry : ViewEntry}
      (hrow : (buildView helpers salt (messages ++ more) none)[n]? = some row)
        (hentry : record.entries[n]? = some entry) =>
        Context.execute_took (c := finalContext helpers _ snapshot oracle .off) rfl hview hpre hrecord hsegmented
          (fun _ => stored_of_toolSegment) hmore hr hrow hentry
    constructor
    · intro n row entry hrow hentry
      have hviewRow : (buildView helpers salt (messages ++ more) none)[n]? = some row := by
        rw [hpre, List.getElem?_append_left (List.getElem?_eq_some_iff.mp hrow).1]
        exact hrow
      obtain ⟨hnever, hstored⟩ := htook hviewRow hentry
      have hlt : n < (buildView helpers salt (messages ++ more) none).length :=
        (List.getElem?_eq_some_iff.mp hviewRow).1
      have hfor := Context.entryFor_get (c := finalContext helpers _ snapshot oracle .off) hpre hrecord hviewRow hentry
      constructor
      · intro hkept
        obtain ⟨b, -, href, -⟩ := hfor.bound hkept
        obtain ⟨hverdict, htarget⟩ := hstored hkept
        rw [href] at htarget
        exact ⟨r.rows n, b.occId, by rw [hrows, getElem?_rows]; exact ⟨hlt, rfl⟩, hverdict, href, htarget⟩
      · refine ⟨Context.plannedEntry row (r.rows n), ?_, toEntry_plannedEntry hfor hnever hstored⟩
        rw [hwrites, hentries]
        change (List.map _ (buildView helpers salt (messages ++ more) none))[n]? = _
        rw [List.getElem?_map, hviewRow, Option.map_some, hview n row hviewRow]
    · rintro rfl
      have hsilent : ∀ row ∈ buildView helpers salt (messages ++ []) none,
          Context.Silent (finalContext helpers (buildView helpers salt (messages ++ []) none) snapshot oracle .off) row
            (r.rows row.index) := by
        intro row hrow
        have hget := hview.get hrow
        have hlt : row.index < record.entries.length := by
          have hbound := hview.index_lt hrow
          rw [← hrecord.entries.length_eq]
          simpa using hbound
        have hentry := List.getElem?_eq_getElem hlt
        obtain ⟨hnever, hstored⟩ := htook hget hentry
        have hfor := Context.entryFor_get (c := finalContext helpers _ snapshot oracle .off) hpre hrecord hget hentry
        exact Context.EntryFor.silent hfor hnever hstored
      have hplan := Context.execute_silent rfl hview hr hsilent
      rw [hwrites]
      refine ⟨?_, congrArg WritePlan.placements hplan, congrArg WritePlan.altStamps hplan,
        congrArg WritePlan.emissionStamps hplan, congrArg WritePlan.uidBindings hplan,
          congrArg WritePlan.adoptions hplan⟩
      intro v hv
      obtain ⟨i, hi⟩ := List.mem_iff_getElem?.mp hv
      rw [hrows, getElem?_rows] at hi
      obtain ⟨hlt, rfl⟩ := hi
      have hrow := hsilent _ (List.getElem_mem hlt)
      rw [hview i _ (List.getElem?_eq_getElem hlt)] at hrow
      exact hrow.not_new

/-! ## A small record -/

def systemMessage : Message := ⟨some "system", some "s", [], none, none, none, none, [], none⟩

/-- A system row, a stamped message and a call with its result. -/
def recordedMessages : List Message :=
  [systemMessage, userMessage "a" (some "7"), callMessage "c" none, resultMessage "c" "x" none]

def recordedView : ViewRecord :=
  ⟨.ingest, 1, true, [⟨some (sampleHelpers.identityDigest [] systemMessage), none, none, none, false⟩,
    sampleEntry (userMessage "a" (some "7")) 1, sampleEntry (callMessage "c" none) 2,
    sampleEntry (resultMessage "c" "x" none) 3]⟩

def recordedSnapshot : Snapshot :=
  sampleSnapshot recordedView.entries
    [storedBinding 1 (userMessage "a" none) (some "7") none, storedBinding 2 (callMessage "c" none) none none,
      storedBinding 3 (resultMessage "c" "x" none) none none] (by decide)

theorem recordOf_recorded :
    RecordOf recordedSnapshot (buildView sampleHelpers [] recordedMessages none) recordedView where
  kind := rfl
  only := rfl
  entries := by
    refine .cons ?_ (.cons ?_ (.cons ?_ (.cons ?_ .nil)))
    · exact ⟨rfl, rfl, rfl, rfl, fun _ => rfl, nofun⟩
    · refine ⟨rfl, by decide +kernel, rfl, rfl, nofun, fun _ => ?_⟩
      exact ⟨storedBinding 1 (userMessage "a" none) (some "7") none, by decide +kernel⟩
    · refine ⟨rfl, by decide +kernel, rfl, rfl, nofun, fun _ => ?_⟩
      exact ⟨storedBinding 2 (callMessage "c" none) none none, by decide +kernel⟩
    · refine ⟨rfl, by decide +kernel, rfl, rfl, nofun, fun _ => ?_⟩
      exact ⟨storedBinding 3 (resultMessage "c" "x" none) none none, by decide +kernel⟩
  distinct := by decide
  apart := by decide +kernel

theorem replay_fixpoint_recorded :
    ∃ result, classify sampleHelpers (buildView sampleHelpers [] (recordedMessages ++ [userMessage "b" none]) none)
        recordedSnapshot sampleOracle .off = .ok result ∧
      ∃ v id, result.rows[1]? = some v ∧ v.verdict = .replay ∧ recordedView.entries[1]?.bind ViewEntry.ref = some id ∧
        v.target = some (.occ id) := by
  obtain ⟨hreturns, hfixed⟩ :=
    @replay_fixpoint sampleHelpers [] recordedMessages [userMessage "b" none] recordedSnapshot
    sampleOracle recordedView recordOf_recorded (by decide +kernel)
  obtain ⟨result, h⟩ := hreturns (by unfold Snapshot.Ordered; decide +kernel)
  exact ⟨result, h, ((hfixed result h).1 1 _ _ rfl rfl).1 rfl⟩

end Classifier
