import LcmX.LedgerCursor
import Mathlib.Data.List.ReduceOption

/-!
# The cold cursor is proven row by row

Behind an anchor the windows list the kept bindings in order, wherever the budget
cuts them, so the paired bindings leave no kept binding out.
-/
namespace IngestLedger

open Classifier (RecordKind)
open Fallible

/-! ## The match of a record -/

theorem commonDigests_le (n : Nat) : ∀ a b : Bytes, commonDigests n a b ≤ n := by
  induction n with
  | zero => exact fun _ _ => le_rfl
  | succ n ih =>
    intro a b
    unfold commonDigests
    split
    · omega
    · have hrest := ih (a.drop 16) (b.drop 16)
      omega

theorem commonPrefixLen_le {a b : Bytes} {m : Nat} (h : commonPrefixLen a b = .ok m) : m ≤ a.length / 16 := by
  unfold commonPrefixLen at h
  split at h
  · cases h
  · cases h
    have hle := commonDigests_le (min a.length b.length / 16) a b
    have hmin : min a.length b.length / 16 ≤ a.length / 16 := Nat.div_le_div_right (min_le_left ..)
    omega

theorem matchMore_le (entries old : List ViewEntry) (n : Nat) : ∀ m, matchMore entries old n m ≤ m + n := by
  induction n with
  | zero => exact fun m => le_rfl
  | succ n ih =>
    intro m
    unfold matchMore
    split
    · split
      · omega
      · have hrest := ih (m + 1)
        omega
    · omega

theorem ofLedger_ok {α : Type} {x : Except LedgerError α} {a : α} (h : ofLedger x = .ok a) : x = .ok a := by
  cases x with
  | ok b =>
    cases h
    rfl
  | error e => cases h

/-- A match stays inside the view and the record. -/
theorem recordMatch_spec {attempt : Attempt} {record : ViewRow} {r : RecordMatch}
    (h : recordMatch attempt record = .ok r) :
    r.record = record ∧ decodeEntries record.entries = .ok r.old ∧ r.m ≤ attempt.entries.length := by
  unfold recordMatch at h
  rw [bind_ok] at h
  obtain ⟨old, hold, h⟩ := h
  dsimp only at h
  rw [bind_ok] at h
  obtain ⟨m, hm, h⟩ := h
  cases h
  refine ⟨rfl, ofLedger_ok hold, ?_⟩
  dsimp only
  have hprefix := commonPrefixLen_le (ofLedger_ok hm)
  rw [List.length_take] at hprefix
  have hmore := matchMore_le attempt.entries old (min attempt.entries.length old.length - m) m
  omega

/-! ## Rows of the ledger -/

/-- A row as the reads give it. -/
structure FromLedger (s : Ledger) (lineage : String) (row : JoinedRow) : Prop where
  bound : row.binding ∈ s.bindings.rows
  lineage : row.binding.lineage = lineage
  message : row.message = s.messageOf row.binding
  observed : ∀ stamp ∈ row.observations, stamp ∈ s.observed row.binding

variable {s : Ledger} {sessionId lineage : String} {attempt : Attempt} {ignored : List Bool} {old : List ViewEntry}
  {row : JoinedRow} {entry ref : ViewEntry} {stamp : Option String} {last : Int} {w : Walk}

theorem readBindings_rows {remaining : Int} {rows : List BindingRow}
    (h : ∀ r ∈ rows, r ∈ s.bindings.rows ∧ r.lineage = lineage) :
    (readBindings s remaining rows).2.map JoinedRow.binding = rows ∧
      ∀ row ∈ (readBindings s remaining rows).2, FromLedger s lineage row := by
  unfold readBindings
  dsimp only
  constructor
  · rw [List.map_map]
    exact List.map_id rows
  · intro row hrow
    obtain ⟨r, hr, rfl⟩ := List.mem_map.mp hrow
    refine ⟨(h r hr).1, (h r hr).2, rfl, fun stamp hstamp => ?_⟩
    dsimp only at hstamp
    split at hstamp
    · exact hstamp
    · cases hstamp

theorem mem_refRows {id : Int} {r : BindingRow} (h : r ∈ refRows s lineage id) :
    r ∈ s.bindings.rows ∧ r.lineage = lineage := by
  unfold refRows at h
  rw [List.mem_filter, decide_eq_true_eq] at h
  exact ⟨h.1, h.2.1⟩

theorem mem_anchorRows {digest : Option Bytes} {r : BindingRow} (h : r ∈ anchorRows s lineage digest) :
    r ∈ s.bindings.rows ∧ r.lineage = lineage := by
  unfold anchorRows at h
  rw [List.mem_filter, decide_eq_true_eq] at h
  exact ⟨h.1, h.2.1⟩

theorem mem_windowRows {r : BindingRow} :
    r ∈ windowRows s lineage last ↔ r ∈ s.bindings.rows ∧ r.lineage = lineage ∧ r.kept ∧ ∃ o,
      r.ordinal = some o ∧ last < o := by
  rw [windowRows, BindingTable.keptRows, List.mem_filter, List.mem_insertionSort, List.mem_filter]
  simp [and_assoc, Option.any_eq_true]

/-- A row that is not refused. -/
structure Eligible (sessionId : String) (row : JoinedRow) (entry : ViewEntry) (last : Int) : Prop where
  disposition : row.binding.disposition = .stored ∨ row.binding.disposition = .migrated
  ordinal : ∃ o, row.binding.ordinal = some o ∧ last < o
  message : ∃ message, row.message = some message ∧ message.sessionId = sessionId
  digest : entry.identityDigest = some row.binding.identityDigest

theorem eligible_none (h : eligible sessionId row entry stamp last = none) : Eligible sessionId row entry last := by
  unfold eligible at h
  split at h
  · cases h
  · split at h
    · cases h
    · next hplace =>
      split at h
      · cases h
      · next message hmessage =>
        split at h
        · cases h
        · next hsession =>
          split at h
          · cases h
          · next hdigest =>
            obtain ⟨hdisposition, hordinal⟩ := not_or.mp hplace
            refine ⟨not_not.mp hdisposition, ?_, ⟨message, hmessage, not_not.mp hsession⟩, (not_not.mp hdigest).symm⟩
            cases ho : row.binding.ordinal with
            | none => simp [ho] at hordinal
            | some o => exact ⟨o, rfl, by simpa [ho] using hordinal⟩

/-! ## Windows -/

theorem ordinalLe_total (a b : BindingRow) : ordinalLe a b ∨ ordinalLe b a := by
  unfold ordinalLe
  cases a.ordinal with
  | none => simp
  | some x =>
    cases b.ordinal with
    | none => simp
    | some y => simpa using le_total x y

theorem ordinalLe_trans (a b c : BindingRow) (hab : ordinalLe a b) (hbc : ordinalLe b c) : ordinalLe a c := by
  unfold ordinalLe at hab hbc ⊢
  cases ha : a.ordinal with
  | none => rfl
  | some x =>
    cases hb : b.ordinal with
    | none => simp [ha, hb] at hab
    | some y =>
      cases hc : c.ordinal with
      | none => simp [hb, hc] at hbc
      | some z =>
        simp only [ha, hb, hc, decide_eq_true_eq] at hab hbc ⊢
        omega

theorem Collide.symm {a b : BindingRow} (h : Collide a b) : Collide b a :=
  ⟨h.2.1, h.1, h.2.2.1.symm, h.2.2.2.2 ▸ h.2.2.2.1, h.2.2.2.2.symm⟩

/-- The index keeps the kept bindings behind a label apart. -/
theorem windowRows_sorted (s : Ledger) (lineage : String) (last : Int) :
    (windowRows s lineage last).Pairwise fun a b => ∀ x y, a.ordinal = some x → b.ordinal = some y → x < y := by
  have hsorted : (s.bindings.keptRows lineage).Pairwise fun a b => ordinalLe a b := by
    have : Std.Total fun a b : BindingRow => (ordinalLe a b : Prop) := ⟨ordinalLe_total⟩
    have : IsTrans BindingRow fun a b : BindingRow => (ordinalLe a b : Prop) := ⟨ordinalLe_trans⟩
    exact List.pairwise_insertionSort _ _
  have hunique : (s.bindings.keptRows lineage).Pairwise fun a b => ¬ Collide a b := by
    have hperm := List.perm_insertionSort (fun a b => (ordinalLe a b : Prop))
      (s.bindings.rows.filter fun r => r.lineage = lineage ∧ r.kept)
    refine (hperm.pairwise_iff fun h hc => h hc.symm).mpr ?_
    exact List.Pairwise.sublist List.filter_sublist s.bindings.unique
  have hboth := List.Pairwise.and hsorted hunique
  refine List.Pairwise.imp_of_mem ?_ (hboth.sublist List.filter_sublist)
  rintro a b ha hb ⟨hle, hne⟩ x y hx hy
  obtain ⟨-, hla, hka, -⟩ := mem_windowRows.mp ha
  obtain ⟨-, hlb, hkb, -⟩ := mem_windowRows.mp hb
  have hxy : x ≤ y := by simpa [ordinalLe, hx, hy] using hle
  have hdiff : x ≠ y := by
    rintro rfl
    exact hne ⟨hka, hkb, hla.trans hlb.symm, by simp [hx], hx.trans hy.symm⟩
  omega

/-- Behind the first row of a window the rest of it follows. -/
theorem windowRows_tail {r : BindingRow} {rest : List BindingRow} {o : Int} (h : windowRows s lineage last = r :: rest)
    (ho : r.ordinal = some o) : windowRows s lineage o = rest := by
  have hsorted := windowRows_sorted s lineage last
  rw [h, List.pairwise_cons] at hsorted
  have hlast : last < o := by
    obtain ⟨-, -, -, o', ho', hlt⟩ := mem_windowRows.mp (h ▸ List.mem_cons_self : r ∈ windowRows s lineage last)
    rw [ho] at ho'
    cases ho'
    exact hlt
  have hfilter : windowRows s lineage o = (windowRows s lineage last).filter fun r => r.ordinal.any (· > o) := by
    unfold windowRows
    rw [List.filter_filter]
    apply List.filter_congr
    intro b _
    cases hb : b.ordinal with
    | none => simp
    | some x =>
      by_cases hx : o < x
      · simp [hx, hlast.trans hx]
      · simp [hx]
  rw [hfilter, h, List.filter_cons_of_neg (by simp [ho])]
  apply List.filter_eq_self.mpr
  intro b hb
  obtain ⟨-, -, -, x, hx, -⟩ := mem_windowRows.mp (h ▸ List.mem_cons_of_mem r hb : b ∈ windowRows s lineage last)
  have hlt := hsorted.1 b hb o x ho hx
  simp [hx, hlt]

/-- No kept binding lies between a label and the first row behind it. -/
theorem windowRows_head {r : BindingRow} {rest : List BindingRow} {o : Int} (h : windowRows s lineage last = r :: rest)
    (ho : r.ordinal = some o) {b : BindingRow} (hb : b ∈ s.bindings.rows) (hl : b.lineage = lineage)
    (hkept : b.kept) {x : Int}
    (hx : b.ordinal = some x) : ¬ (last < x ∧ x < o) := by
  rintro ⟨hlow, hhigh⟩
  have hsorted := windowRows_sorted s lineage last
  have hin := mem_windowRows.mpr ⟨hb, hl, hkept, x, hx, hlow⟩
  rw [h] at hin hsorted
  cases hin with
  | head =>
    rw [ho] at hx
    cases hx
    omega
  | tail _ hin =>
    have hlt := (List.pairwise_cons.mp hsorted).1 b hin o x ho hx
    omega

/-! ## Finding a row -/

/-- The search among the rows of a digest finds one of them, or none. -/
theorem found_of_search {start remaining : Int} {window : List JoinedRow} (h : (match readBindings s start
      ((anchorRows s lineage entry.identityDigest).take ((max 0 start).toNat + 1)) with
      | (remaining, rows) =>
        if remaining < 0 then (remaining, Found.stop "budget")
        else
          match rows.filter fun row => (eligible sessionId row entry stamp w.last).isNone with
          | [] => (remaining, .stop "no_anchor")
          | [row] => (remaining, .row row [])
          | _ => (remaining, .stop "ambiguous_anchor")) = (remaining, .row row window)) :
    window = [] ∧ FromLedger s lineage row ∧ Eligible sessionId row entry w.last := by
  have hread := (@readBindings_rows s lineage start
    ((anchorRows s lineage entry.identityDigest).take ((max 0 start).toNat + 1))
    fun r hr => mem_anchorRows (List.mem_of_mem_take hr)).2
  generalize readBindings s start _ = read at h hread
  dsimp only at h
  split at h
  · cases h
  · split at h
    · cases h
    · next found hfilter =>
      cases h
      have hin : row ∈ read.2.filter fun row => (eligible sessionId row entry stamp w.last).isNone := by
        rw [hfilter]
        exact List.mem_singleton.mpr rfl
      obtain ⟨hmem, heligible⟩ := List.mem_filter.mp hin
      exact ⟨rfl, hread row hmem, eligible_none (Option.isNone_iff_eq_none.mp heligible)⟩
    · cases h

theorem findAnchor_row {remaining : Int} {window : List JoinedRow}
    (h : findAnchor s sessionId lineage entry ref stamp w = (remaining, .row row window)) :
    window = [] ∧ FromLedger s lineage row ∧ Eligible sessionId row entry w.last := by
  unfold findAnchor at h
  cases href : ref.ref with
  | none =>
    rw [href] at h
    exact found_of_search h
  | some id =>
    rw [href] at h
    dsimp only at h
    have hread := (@readBindings_rows s lineage w.remaining ((refRows s lineage id).take 1)
      fun r hr => mem_refRows (List.mem_of_mem_take hr)).2
    cases hnamed : (readBindings s w.remaining ((refRows s lineage id).take 1)).2.head?.filter
        fun row => (eligible sessionId row entry stamp w.last).isNone with
    | none =>
      rw [hnamed] at h
      exact found_of_search h
    | some named =>
      rw [hnamed] at h
      cases h
      obtain ⟨hhead, heligible⟩ := Option.filter_eq_some_iff.mp hnamed
      exact ⟨rfl, hread row (List.mem_of_head? hhead), eligible_none (Option.isNone_iff_eq_none.mp heligible)⟩

/-- A window of the walk: the kept bindings behind the last one, as far as they were read. -/
structure Ahead (s : Ledger) (lineage : String) (last : Int) (window : List JoinedRow) : Prop where
  rows : ∀ row ∈ window, FromLedger s lineage row
  front : ∃ rest, windowRows s lineage last = window.map JoinedRow.binding ++ rest

theorem ahead_nil (s : Ledger) (lineage : String) (last : Int) : Ahead s lineage last [] :=
  ⟨List.forall_mem_nil _, _, rfl⟩

theorem ahead_read (remaining : Int) (limit : Nat) :
    Ahead s lineage last (readBindings s remaining ((windowRows s lineage last).take limit)).2 := by
  obtain ⟨hmap, hrows⟩ := @readBindings_rows s lineage remaining ((windowRows s lineage last).take limit) fun r hr => by
    obtain ⟨hin, hl, -⟩ := mem_windowRows.mp (List.mem_of_mem_take hr)
    exact ⟨hin, hl⟩
  refine ⟨hrows, (windowRows s lineage last).drop limit, ?_⟩
  rw [hmap, List.take_append_drop]

/-- The row that the front of the window gives, if any. -/
theorem found_of_window {remaining left : Int} {window ahead : List JoinedRow} (hahead : Ahead s lineage w.last ahead)
    (h : (match ahead with
      | [] => (left, Found.stop "not_contiguous")
      | row :: window =>
        match eligible sessionId row entry stamp w.last with
        | some reason => (left, .stop reason)
        | none => if ref.ref.any (· ≠ row.binding.occId) then (left, .stop "not_contiguous")
              else (left, .row row window)) =
          (remaining, .row row window)) : Eligible sessionId row entry w.last ∧
            Ahead s lineage w.last (row :: window) := by
  split at h
  · cases h
  · split at h
    · cases h
    · next heligible =>
      split at h
      · cases h
      · cases h
        exact ⟨eligible_none heligible, hahead⟩

theorem findNext_row {remaining : Int} {window : List JoinedRow} {ahead : Nat}
    (hahead : Ahead s lineage w.last w.window)
    (h : findNext s sessionId lineage entry ref stamp ahead w = (remaining, .row row window)) :
    Eligible sessionId row entry w.last ∧ Ahead s lineage w.last (row :: window) := by
  unfold findNext at h
  cases hw : w.window with
  | nil =>
    rw [hw] at h
    exact found_of_window (ahead_read _ _) h
  | cons first others =>
    rw [hw] at h
    exact @found_of_window _ _ _ _ _ _ _ _ _ w.remaining _ (first :: others) (hw ▸ hahead) h

/-! ## The walk -/

/-- What a pair of the candidate rests on. -/
structure Proven (s : Ledger) (sessionId lineage : String) (attempt : Attempt)
    (old : List ViewEntry) (p : Nat × JoinedRow) : Prop where
  bound : p.2.binding ∈ s.bindings.rows
  lineage : p.2.binding.lineage = lineage
  message : ∃ id message, p.2.binding.storeId = some id ∧ s.messages.get id = some message ∧
    message.sessionId = sessionId
  disposition : p.2.binding.disposition = .stored ∨ p.2.binding.disposition = .migrated
  digest : ∃ entry, attempt.entries[p.1]? = some entry ∧ entry.identityDigest = some p.2.binding.identityDigest
  witness : (∃ stamp, attempt.stamps[p.1]? = some (some stamp) ∧
    (p.2.binding.stamp = some stamp ∨ stamp ∈ s.observed p.2.binding)) ∨
    ∃ entry ref digest, attempt.entries[p.1]? = some entry ∧ old[p.1]? = some ref ∧ entry.uidsetDigest = some digest ∧
      ref.uidsetDigest = some digest ∧ ref.ref = some p.2.binding.occId

/-- Consecutive pairs: later in the view, later in the lineage, and no kept binding between them. -/
structure Follows (s : Ledger) (lineage : String) (a b : Nat × JoinedRow) : Prop where
  view : a.1 < b.1
  ordinal : ∃ x y, a.2.binding.ordinal = some x ∧ b.2.binding.ordinal = some y ∧ x < y ∧
    ∀ r ∈ s.bindings.rows, r.lineage = lineage → r.kept → ∀ o ∈ r.ordinal, ¬ (x < o ∧ o < y)

/-- The pairs of the rows before `k`. -/
structure Paired (s : Ledger) (sessionId lineage : String) (attempt : Attempt) (ignored : List Bool)
    (old : List ViewEntry) (k : Nat)
    (pairs : List (Nat × JoinedRow)) : Prop where
  only : ∀ p ∈ pairs, p.1 < k
  below : ∀ i < k, ignored[i]? ≠ some true → i ∈ pairs.map Prod.fst
  proven : ∀ p ∈ pairs, Proven s sessionId lineage attempt old p
  chain : pairs.IsChain (Follows s lineage)

/-- The walk before row `i`. -/
structure Walked (s : Ledger) (sessionId lineage : String) (attempt : Attempt) (ignored : List Bool)
    (old : List ViewEntry) (i : Nat)
    (w : Walk) : Prop where
  k : w.k = i
  paired : Paired s sessionId lineage attempt ignored old i w.pairs
  anchor : w.anchor = true → w.pairs = []
  last : w.anchor = false → ∀ p ∈ w.pairs.getLast?, p.2.binding.ordinal = some w.last
  window : Ahead s lineage w.last w.window

variable {k i : Nat} {pairs : List (Nat × JoinedRow)}

theorem walked_start (remaining : Int) :
    Walked s sessionId lineage attempt ignored old 0 { remaining := remaining } := by
  refine ⟨rfl, ⟨List.forall_mem_nil _, ?_, List.forall_mem_nil _, .nil⟩, fun _ => rfl, nofun, ahead_nil _ _ _⟩
  intro i hi
  omega

theorem Paired.skip (h : Paired s sessionId lineage attempt ignored old k pairs) (hskip : ignored[k]? = some true) :
    Paired s sessionId lineage attempt ignored old (k + 1) pairs := by
  refine ⟨fun p hp => Nat.lt_succ_of_lt (h.only p hp), fun i hi hnot => ?_, h.proven, h.chain⟩
  by_cases hik : i = k
  · subst hik
    exact absurd hskip hnot
  · exact h.below i (by omega) hnot

theorem Paired.push (h : Paired s sessionId lineage attempt ignored old k pairs)
    (hproven : Proven s sessionId lineage attempt old (k, row))
    (hfollows : ∀ p ∈ pairs.getLast?, Follows s lineage p (k, row)) :
    Paired s sessionId lineage attempt ignored old (k + 1) (pairs ++ [(k, row)]) := by
  constructor
  · intro p hp
    cases List.mem_append.mp hp with
    | inl hp => exact Nat.lt_succ_of_lt (h.only p hp)
    | inr hp =>
      rw [List.mem_singleton.mp hp]
      exact Nat.lt_succ_self k
  · intro i hi hnot
    rw [List.map_append, List.mem_append]
    by_cases hik : i = k
    · exact .inr (by simp [hik])
    · exact .inl (h.below i (by omega) hnot)
  · intro p hp
    cases List.mem_append.mp hp with
    | inl hp => exact h.proven p hp
    | inr hp =>
      rw [List.mem_singleton.mp hp]
      exact hproven
  · rw [List.isChain_append]
    refine ⟨h.chain, List.isChain_singleton _, fun p hp q hq => ?_⟩
    cases hq
    exact hfollows p hp

/-- An eligible row of the ledger with evidence is proven. -/
theorem proven_of_eligible (hrow : FromLedger s lineage row) (heligible : Eligible sessionId row entry last)
    (hevidence : occurrenceEvidence row entry ref stamp = true)
    (hentry : attempt.entries[i]? = some entry) (hold : old[i]? = some ref)
    (hstamp : attempt.stamps[i]? = some stamp) : Proven s sessionId lineage attempt old (i, row) := by
  refine ⟨hrow.bound, hrow.lineage, ?_, heligible.disposition, ⟨entry, hentry, heligible.digest⟩, ?_⟩
  · obtain ⟨message, hmessage, hsession⟩ := heligible.message
    rw [hrow.message, Ledger.messageOf, Option.bind_eq_some_iff] at hmessage
    obtain ⟨id, hid, hget⟩ := hmessage
    exact ⟨id, message, hid, hget, hsession⟩
  · unfold occurrenceEvidence at hevidence
    rw [decide_eq_true_eq] at hevidence
    obtain hstamped | ⟨hsome, huid, href⟩ := hevidence
    · left
      obtain ⟨text, rfl, hwitness⟩ := (Option.any_eq_true _ _).mp hstamped
      refine ⟨text, hstamp, ?_⟩
      rw [decide_eq_true_eq] at hwitness
      exact hwitness.imp id (hrow.observed text)
    · right
      obtain ⟨digest, hdigest⟩ := Option.isSome_iff_exists.mp hsome
      exact ⟨entry, ref, digest, hentry, hold, hdigest, huid ▸ hdigest, href⟩

theorem Ahead.tail {window : List JoinedRow} {o : Int} (h : Ahead s lineage last (row :: window))
    (ho : row.binding.ordinal = some o) :
    Ahead s lineage o window := by
  obtain ⟨rest, hfront⟩ := h.front
  rw [List.map_cons, List.cons_append] at hfront
  exact ⟨fun r hr => h.rows r (List.mem_cons_of_mem _ hr), rest, windowRows_tail hfront ho⟩

/-- The next kept binding follows the pair before it. -/
theorem Ahead.follows {window : List JoinedRow} {p : Nat × JoinedRow} {o : Int}
    (h : Ahead s lineage last (row :: window))
    (hp : p.2.binding.ordinal = some last) (hview : p.1 < i) (ho : row.binding.ordinal = some o) (hlt : last < o) :
    Follows s lineage p (i, row) := by
  obtain ⟨rest, hfront⟩ := h.front
  rw [List.map_cons, List.cons_append] at hfront
  exact ⟨hview, last, o, hp, ho, hlt, fun r hr hl hkept x hx => windowRows_head hfront ho hr hl hkept hx⟩

/-- A row that the walk finds: it follows the pair before it, and the window goes on behind it. -/
theorem find_row {remaining : Int} {ahead : Nat} {window : List JoinedRow}
    (hwalked : Walked s sessionId lineage attempt ignored old i w)
    (h : (if w.anchor then findAnchor s sessionId lineage entry ref stamp w
      else findNext s sessionId lineage entry ref stamp ahead w) = (remaining, .row row window)) :
    FromLedger s lineage row ∧ Eligible sessionId row entry w.last ∧
      (∀ p ∈ w.pairs.getLast?, Follows s lineage p (i, row)) ∧ ∀ o, row.binding.ordinal = some o →
      Ahead s lineage o window := by
  cases hanchor : w.anchor with
  | true =>
    rw [hanchor, if_pos rfl] at h
    obtain ⟨rfl, hrow, heligible⟩ := findAnchor_row h
    refine ⟨hrow, heligible, fun p hp => ?_, fun o _ => ahead_nil _ _ _⟩
    rw [hwalked.anchor hanchor] at hp
    cases hp
  | false =>
    rw [hanchor, if_neg Bool.false_ne_true] at h
    obtain ⟨heligible, hahead⟩ := findNext_row hwalked.window h
    obtain ⟨o, ho, hlt⟩ := heligible.ordinal
    refine ⟨hahead.rows row List.mem_cons_self, heligible, fun p hp => ?_, fun o' ho' => hahead.tail ho'⟩
    exact hahead.follows (hwalked.last hanchor p hp) (hwalked.paired.only p (List.mem_of_getLast? hp)) ho hlt

/-- A round that stops leaves the prefix and its pairs. -/
theorem proveRow_stop {m : Nat} {skip : Bool} {w' : Walk} {reason : String}
    (h : proveRow s sessionId lineage m i entry ref stamp skip w = (w', some reason)) :
      w'.k = w.k ∧ w'.pairs = w.pairs := by
  unfold proveRow at h
  split at h
  · cases h
    exact ⟨rfl, rfl⟩
  · split at h
    · cases h
    · split at h
      · cases h
        exact ⟨rfl, rfl⟩
      · dsimp only at h
        split at h
        · cases h
          exact ⟨rfl, rfl⟩
        · split at h
          · cases h
            exact ⟨rfl, rfl⟩
          · cases h

/-- A round that goes on leaves the walk before the next row. -/
theorem proveRow_next {m : Nat} {skip : Option Bool} {w' : Walk}
    (hwalked : Walked s sessionId lineage attempt ignored old i w)
    (hentry : attempt.entries[i]? = some entry) (hold : old[i]? = some ref) (hstamp : attempt.stamps[i]? = some stamp)
    (hskip : ignored[i]? = skip)
    (h : proveRow s sessionId lineage m i entry ref stamp (skip.getD false) w = (w', none)) :
    Walked s sessionId lineage attempt ignored old (i + 1) w' := by
  unfold proveRow at h
  split at h
  · cases h
  · split at h
    · next hignored =>
      cases h
      obtain ⟨b, hb, rfl⟩ : ∃ b, skip = some b ∧ b = true := by
        cases skip with
        | none => cases hignored
        | some b => exact ⟨b, rfl, hignored⟩
      exact ⟨rfl, hwalked.paired.skip (hskip.trans hb), hwalked.anchor, hwalked.last, hwalked.window⟩
    · split at h
      · cases h
      · dsimp only at h
        generalize hfind : (if w.anchor then findAnchor s sessionId lineage entry ref stamp w
          else findNext s sessionId lineage entry ref stamp (m - i) w) = result at h
        obtain ⟨remaining, found⟩ := result
        cases found with
        | stop reason => cases h
        | row row window =>
          dsimp only at h
          split at h
          · cases h
          · next hevidence =>
            cases h
            obtain ⟨hrow, heligible, hfollows, hahead⟩ := find_row hwalked hfind
            obtain ⟨o, ho, -⟩ := heligible.ordinal
            have hproven := proven_of_eligible hrow heligible (not_not.mp hevidence) hentry hold hstamp
            refine ⟨rfl, hwalked.paired.push hproven hfollows, nofun, fun _ p hp => ?_, ?_⟩
            · rw [List.getLast?_concat] at hp
              cases hp
              rw [ho, Option.getD_some]
            · dsimp only
              rw [ho, Option.getD_some]
              exact hahead o ho

/-- However the walk ends, its pairs are those of the rows before its prefix. -/
theorem proveRows_paired {r : RecordMatch} (n : Nat) : ∀ {i : Nat} {w w' : Walk} {reason : String},
    Walked s sessionId lineage attempt ignored r.old i w →
      proveRows s sessionId lineage attempt ignored r n i w = .ok (w', reason) →
        w'.k ≤ i + n ∧ Paired s sessionId lineage attempt ignored r.old w'.k w'.pairs := by
  induction n with
  | zero =>
    intro i w w' reason hwalked h
    cases h
    exact ⟨hwalked.k.le, hwalked.k ▸ hwalked.paired⟩
  | succ n ih =>
    intro i w w' reason hwalked h
    unfold proveRows at h
    split at h
    · next entry ref stamp hentry hold hstamp =>
      split at h
      · cases h
      · split at h
        · next hstop =>
          cases h
          obtain ⟨hk, hpairs⟩ := proveRow_stop hstop
          rw [hk, hpairs, hwalked.k]
          exact ⟨by omega, hwalked.paired⟩
        · next hnext =>
          have hrest := ih (proveRow_next hwalked hentry hold hstamp rfl hnext) h
          exact ⟨by omega, hrest.2⟩
    · cases h

/-! ## The candidate -/

theorem head_newestView {kind : RecordKind} {view : ViewRow} (h : newestView s lineage kind = some view) :
    view ∈ s.views.rows ∧ view.lineage = lineage ∧ view.kind = kind := by
  have hin := List.mem_of_head? h
  rw [List.mem_insertionSort, List.mem_filter, decide_eq_true_eq] at hin
  exact hin

theorem emissionCandidate_view {view : ViewRow} {reason : String}
    (h : emissionCandidate s lineage = (some view, reason)) :
    newestView s lineage .emission = some view := by
  unfold emissionCandidate at h
  split at h
  · cases h
  · next found hfound =>
    rw [hfound]
    dsimp only at h
    split at h
    · cases h
    · split at h
      · cases h
      · split at h
        · cases h
        · cases h
          rfl

/-- The records are views of the lineage. -/
theorem mem_records {view : ViewRow}
    (h : view ∈ [newestView s lineage .ingest, (emissionCandidate s lineage).1].reduceOption) :
    view ∈ s.views.rows ∧ view.lineage = lineage := by
  rw [List.reduceOption_mem_iff] at h
  have hnewest : ∃ kind, newestView s lineage kind = some view := by
    cases List.mem_cons.mp h with
    | inl hingest => exact ⟨.ingest, hingest.symm⟩
    | inr hemission => exact ⟨.emission, emissionCandidate_view (Prod.ext (List.mem_singleton.mp hemission).symm rfl)⟩
  obtain ⟨kind, hkind⟩ := hnewest
  obtain ⟨hin, hl, -⟩ := head_newestView hkind
  exact ⟨hin, hl⟩

/-- What a cold candidate promises about the view. -/
structure SoundCandidate (s : Ledger) (sessionId lineage : String) (attempt : Attempt)
    (ignored : List Bool) (c : Candidate) : Prop where
  bounded : c.k ≤ c.m.getD 0 ∧ c.m.getD 0 ≤ attempt.entries.length
  below : ∀ i < c.k, ignored[i]? ≠ some true → i ∈ c.pairs.map Prod.fst
  only : ∀ p ∈ c.pairs, p.1 < c.k
  proven : ∀ p ∈ c.pairs, ∃ record ∈ s.views.rows, record.lineage = lineage ∧ c.kind = some record.kind ∧
    c.viewSeq = some record.viewSeq ∧ ∃ old, decodeEntries record.entries = .ok old ∧
      Proven s sessionId lineage attempt old p
  increasing : c.pairs.Pairwise fun a b => a.1 < b.1 ∧ ∃ x y, a.2.binding.ordinal = some x ∧
    b.2.binding.ordinal = some y ∧ x < y
  distinct : (c.pairs.map fun p => p.2.binding.occId).Nodup
  contiguous : c.pairs.IsChain (Follows s lineage)

theorem soundCandidate_default : SoundCandidate s sessionId lineage attempt ignored {} :=
  ⟨⟨le_rfl, Nat.zero_le _⟩, fun _ hi => absurd hi (Nat.not_lt_zero _), List.forall_mem_nil _,
    List.forall_mem_nil _, .nil,
    List.nodup_nil, .nil⟩

/-- Consecutive pairs in order are all in order. -/
theorem increasing_of_follows (h : pairs.IsChain (Follows s lineage)) :
    pairs.Pairwise fun a b => a.1 < b.1 ∧ ∃ x y, a.2.binding.ordinal = some x ∧
      b.2.binding.ordinal = some y ∧ x < y := by
  have htrans : IsTrans (Nat × JoinedRow)
      fun a b => a.1 < b.1 ∧ ∃ x y, a.2.binding.ordinal = some x ∧ b.2.binding.ordinal = some y ∧ x < y := by
    constructor
    rintro a b c ⟨hab, x, y, hx, hy, hxy⟩ ⟨hbc, y', z, hy', hz, hyz⟩
    rw [hy] at hy'
    cases hy'
    exact ⟨hab.trans hbc, x, z, hx, hz, hxy.trans hyz⟩
  rw [← List.isChain_iff_pairwise]
  apply h.imp
  rintro a b ⟨hview, x, y, hx, hy, hxy, -⟩
  exact ⟨hview, x, y, hx, hy, hxy⟩

theorem soundCandidate_of_paired {r : RecordMatch} {record : ViewRow} (hmatch : recordMatch attempt record = .ok r)
    (hrecord : record ∈ s.views.rows ∧ record.lineage = lineage) (hk : k ≤ r.m)
    (h : Paired s sessionId lineage attempt ignored r.old k pairs) :
    SoundCandidate s sessionId lineage attempt ignored
      ⟨k, pairs, some r.m, some r.record.kind, some r.record.viewSeq⟩ := by
  obtain ⟨rfl, hold, hm⟩ := recordMatch_spec hmatch
  have hincreasing := increasing_of_follows h.chain
  refine ⟨⟨hk, hm⟩, h.below, h.only, fun p hp => ?_, hincreasing, ?_, h.chain⟩
  · exact ⟨r.record, hrecord.1, hrecord.2, rfl, rfl, r.old, hold, h.proven p hp⟩
  · unfold List.Nodup
    rw [List.pairwise_map]
    apply hincreasing.imp_of_mem
    rintro a b ha hb ⟨-, x, y, hx, hy, hxy⟩ heq
    -- The primary key makes one binding of equal ids, which has one ordinal.
    have hsame := List.inj_on_of_nodup_map s.bindings.key (h.proven a ha).bound (h.proven b hb).bound heq
    rw [hsame, hy] at hx
    cases hx
    omega

theorem proveAll_sound {records : List RecordMatch}
    (hrecords : ∀ r ∈ records, ∃ record, recordMatch attempt record = .ok r ∧
      record ∈ s.views.rows ∧ record.lineage = lineage) :
    ∀ {remaining : Int} {runs : List Candidate} {counts : List String},
      proveAll s sessionId lineage attempt ignored records remaining = .ok (runs, counts) →
        ∀ c ∈ runs, SoundCandidate s sessionId lineage attempt ignored c := by
  induction records with
  | nil =>
    intro remaining runs counts h
    cases h
    exact List.forall_mem_nil _
  | cons r records ih =>
    intro remaining runs counts h
    unfold proveAll prove at h
    simp only [bind_ok] at h
    obtain ⟨⟨candidate, left, reason⟩, ⟨⟨w, reason'⟩, hprove, hcandidate⟩, ⟨candidates, stops⟩, hrest, hruns⟩ := h
    cases hcandidate
    cases hruns
    intro c hc
    cases hc with
    | head =>
      obtain ⟨record, hmatch, hrecord⟩ := hrecords r List.mem_cons_self
      obtain ⟨hk, hpaired⟩ := proveRows_paired r.m (walked_start remaining) hprove
      exact soundCandidate_of_paired hmatch hrecord (show w.k ≤ r.m by omega) hpaired
    | tail _ hc => exact ih (fun r hr => hrecords r (List.mem_cons_of_mem _ hr)) hrest c hc

variable {c : Candidate} {counts : List String}

/-- Every candidate of the cold cursor is sound for the persisted lineage. -/
theorem coldCursorCandidate_sound (h : coldCursorCandidate s sessionId attempt ignored = .ok (c, counts)) :
    SoundCandidate s sessionId (persistedLineage s sessionId attempt.lineage) attempt ignored c := by
  unfold coldCursorCandidate at h
  simp only [bind_ok] at h
  obtain ⟨records, hrecords, ⟨runs, stops⟩, hruns, h⟩ := h
  cases h
  have hsound := proveAll_sound (fun r hr => by
    obtain ⟨record, hin, hmatch⟩ := mapM_mem hrecords hr
    exact ⟨record, hmatch, mem_records hin⟩) hruns
  cases hwinner : runs.argmax Candidate.k with
  | none => exact soundCandidate_default
  | some winner => exact hsound winner (List.argmax_mem hwinner)

/-- The digest of a one-byte name. -/
def sampleDigest (n : UInt8) : Bytes := List.replicate 16 n

def sampleEntries : List ViewEntry :=
  [⟨some (sampleDigest 1), none, none, some 7, false⟩, ⟨some (sampleDigest 2), none, none, none, false⟩,
    ⟨some (sampleDigest 3), none, some (sampleDigest 9), some 8, false⟩]

/-- Two stored rows that a record names, with another lineage's row between their ordinals. -/
def sampleLedger : Ledger where
  bindings :=
    { rows :=
        [⟨7, "session", some 10, some 1, sampleDigest 1, some "t1", .stored⟩,
          ⟨8, "session", some 20, some 2, sampleDigest 3, none, .migrated⟩,
          ⟨9, "other", some 15, some 3, sampleDigest 3, none, .stored⟩]
      key := by decide
      unique := by decide }
  observations := ⟨[], by decide⟩
  emissions := ⟨[], by decide⟩
  views := ⟨[⟨"session", 4, .ingest, none, ((encodeEntries sampleEntries).toOption.getD []), []⟩], by decide⟩
  marks := .empty
  ledgerMeta := .empty
  messages := ⟨[(1, ⟨"s", none⟩), (2, ⟨"s", none⟩), (3, ⟨"s", none⟩)], by decide⟩

def sampleAttempt : Attempt := ⟨sampleEntries, [some "t1", none, none], "session", []⟩

/-- A stamp proves the first row, the second is ignored and equal uid sets prove the third. -/
theorem coldCursorCandidate_sound_sample : ∃ c counts,
    coldCursorCandidate sampleLedger "s" sampleAttempt [false, true, false] = .ok (c, counts) ∧ c.k = 3 ∧
      SoundCandidate sampleLedger "s" (persistedLineage sampleLedger "s" sampleAttempt.lineage)
      sampleAttempt [false, true, false] c := by
  have hk : (coldCursorCandidate sampleLedger "s" sampleAttempt [false, true, false]).toOption.map
      (fun c => c.1.k) = some 3 := by
    decide +kernel
  have hok : (coldCursorCandidate sampleLedger "s" sampleAttempt [false, true, false]).isOk = true := by decide +kernel
  obtain ⟨⟨c, counts⟩, h⟩ := exists_ok hok
  exact ⟨c, counts, h, map_of_ok (fun c : Candidate × List String => c.1.k) h hk, coldCursorCandidate_sound h⟩

end IngestLedger
