import LcmX.ToolSegments
import Mathlib.Data.Set.Card

/-!
# What backs a replayed segment

Every replay after the cursor is covered by stored copies that the prefix does not
account for, and calls and results are replayed together.
-/
namespace Reconcile

open Tally

/-! ## Positions -/

namespace Readings

variable {α : Type} {r : Readings α}

/-- A result is in its place, and only tool rows stand before it. -/
theorem mem_resultsFrom {rows : List α} {start : Nat} {p : α × Nat} (h : p ∈ r.resultsFrom rows start) :
    rows[p.2]? = some p.1 ∧ start ≤ p.2 ∧ ∀ j, start ≤ j → j ≤ p.2 → ∃ m, rows[j]? = some m ∧ r.isTool m = true := by
  obtain ⟨n, hn⟩ := List.mem_iff_getElem?.mp h
  have hlt : n < (r.resultsFrom rows start).length := (List.getElem?_eq_some_iff.mp hn).1
  have hplace : ∀ k, k ≤ n → ∃ m, (r.resultsFrom rows start)[k]? = some (m, start + k) ∧
      rows[start + k]? = some m ∧ r.isTool m = true := by
    intro k hk
    have hkn : k < (r.resultsFrom rows start).length := by omega
    have hget := List.getElem?_eq_getElem hkn
    have hprefix : r.resultsFrom rows start <+: rows.zipIdx.drop start := List.takeWhile_prefix _
    have hdrop := List.prefix_iff_getElem?.mp hprefix k hkn
    rw [List.getElem?_drop, List.getElem?_zipIdx, Option.map_eq_some_iff] at hdrop
    obtain ⟨m, hm, heq⟩ := hdrop
    rw [Nat.zero_add] at heq
    have htool := List.mem_takeWhile_imp (List.getElem_mem hkn)
    rw [← heq] at hget htool
    exact ⟨m, hget, hm, htool⟩
  obtain ⟨m, hm, hrow, -⟩ := hplace n le_rfl
  rw [hn, Option.some.injEq] at hm
  subst hm
  refine ⟨hrow, Nat.le_add_right _ _, fun j hj hle => ?_⟩
  obtain ⟨m', -, hrow', htool⟩ := hplace (j - start) (by dsimp only at hle; omega)
  rw [Nat.add_sub_cancel' hj] at hrow'
  exact ⟨m', hrow', htool⟩

end Readings

namespace SegmentRun

variable {M R : Type} {e : SegmentEngine M R} {run : SegmentRun M R}

/-- Row `i` is a result of the call at `call`, and only tool rows stand between them. -/
structure Follows (e : SegmentEngine M R) (run : SegmentRun M R) (call i : Nat) : Prop where
  before : call < i
  tools : ∀ j, call < j → j ≤ i → ∃ m, run.messages[j]? = some m ∧ e.host.isTool m = true
  id : ∃ c m, run.messages[call]? = some c ∧ run.messages[i]? = some m ∧ e.host.role c = "assistant" ∧
    e.host.toolCallId m ∈ e.host.callIds c

theorem Follows.not_tool {call i : Nat} (h : Follows e run call i) {m : M}
    (hm : run.messages[call]? = some m) : e.host.isTool m = false := by
  obtain ⟨c, -, hc, -, hrole, -⟩ := h.id
  rw [hm] at hc
  cases hc
  simp [Readings.isTool, hrole]

theorem follows_of_mem {call : M} {index : Nat} (hcall : run.messages[index]? = some call)
    (hrole : e.host.role call = "assistant")
    {p : M × Nat} (hp : p ∈ e.host.resultsFrom run.messages (index + 1))
    (hid : e.host.toolCallId p.1 ∈ e.host.callIds call) :
    Follows e run index p.2 := by
  obtain ⟨hrow, hle, htools⟩ := Readings.mem_resultsFrom hp
  exact ⟨hle, fun j hj => htools j hj, call, p.1, hcall, hrow, hrole, hid⟩

/-! ## The results of a segment -/

theorem resultIndexes_rows (l : List (M × Nat)) : ∀ q ∈ (resultIndexes e l).rows, q.2 ∈ l ∧
    e.host.toolCallId q.2.1 = q.1 := by
  have hfold : ∀ (rest : List (M × Nat)) (t : KeyedTable String (M × Nat)), rest ⊆ l →
      (∀ k v, t.get k = some v → v ∈ l ∧ e.host.toolCallId v.1 = k) →
        ∀ k v, (rest.foldl (fun t p => t.assign (e.host.toolCallId p.1) p) t).get k = some v →
          v ∈ l ∧ e.host.toolCallId v.1 = k := by
    intro rest
    induction rest with
    | nil => exact fun _ _ h => h
    | cons p rest ih =>
      intro t hsub h
      refine ih _ (fun x hx => hsub (List.mem_cons_of_mem _ hx)) fun k v hget => ?_
      rw [KeyedTable.get_assign] at hget
      split at hget
      · next hk =>
        cases hget
        exact ⟨hsub List.mem_cons_self, hk.symm⟩
      · exact h k v hget
  rintro ⟨k, v⟩ hq
  exact hfold l .empty (fun _ h => h) (fun k v h => by cases h) k v (KeyedTable.get_eq_some.mpr hq)

/-- The results that are chosen are different ones of the results at hand. -/
theorem resultIndexes_subperm (l : List (M × Nat)) : ((resultIndexes e l).rows.map Prod.snd).Subperm l := by
  refine List.Nodup.subperm ?_ fun p hp => ?_
  · refine List.Nodup.of_map (fun p : M × Nat => e.host.toolCallId p.1) ?_
    have hkeys : ((resultIndexes e l).rows.map Prod.snd).map (fun p => e.host.toolCallId p.1) =
        (resultIndexes e l).rows.map Prod.fst := by
      rw [List.map_map]
      apply List.map_congr_left
      exact fun q hq => (resultIndexes_rows l q hq).2
    rw [hkeys]
    exact (resultIndexes e l).unique
  · obtain ⟨q, hq, rfl⟩ := List.mem_map.mp hp
    exact (resultIndexes_rows l q hq).1

theorem rowIdentity_of {i : Nat} {m : M} (h : run.messages[i]? = some m) :
    run.rowIdentity e i = some (e.host.identity m) := by
  rw [rowIdentity, h]
  rfl

theorem pairAt_of {a i : Nat} {c m : M} (hc : run.messages[a]? = some c) (hm : run.messages[i]? = some m) :
    run.pairAt e a i = some (e.host.identity c, e.host.identity m) := by
  rw [pairAt, rowIdentity_of hc, rowIdentity_of hm]
  rfl

/-! ## The results at the cursor -/

variable {base counts : Tally ReplayIdentity} {spent : List ReplayIdentity}

theorem reserveUnspent_covered (following : List R) (done : List Int) :
    ∀ {counts : Tally ReplayIdentity}, Covered base counts spent →
      Covered base (run.reserveUnspent e following done counts) spent := by
  unfold reserveUnspent
  induction following with
  | nil => exact fun h => h
  | cons row following ih =>
    intro counts h
    rw [List.foldl_cons]
    apply ih
    split
    · exact h
    · split
      · next hpos => exact h.reserve hpos
      · exact h

/-- The results at the cursor are behind its call, and each has taken its copy. -/
structure AtCursorSound (e : SegmentEngine M R) (run : SegmentRun M R) (base : Tally ReplayIdentity)
    (replayed : List Nat)
    (counts : Tally ReplayIdentity) : Prop where
  covered : Covered base counts (replayed.filterMap (run.rowIdentity e))
  follows : ∀ i ∈ replayed, 1 ≤ run.cursor ∧ Follows e run (run.cursor.toNat - 1) i

/-- A result of the call at the cursor keeps the claims sound. -/
theorem resultAtCursor_sound {call : M} (hcursor : 1 ≤ run.cursor)
    (hcall : run.messages[run.cursor.toNat - 1]? = some call)
    (hrole : e.host.role call = "assistant") {p : M × Nat}
    (hp : p ∈ e.host.resultsFrom run.messages run.cursor.toNat) {s : AtCursor R}
    (h : AtCursorSound e run base s.replayed s.counts) :
    AtCursorSound e run base (run.resultAtCursor e (e.host.callIds call) s p).replayed
      (run.resultAtCursor e (e.host.callIds call) s p).counts := by
  unfold resultAtCursor
  dsimp only
  split
  · exact h
  · next hid =>
    rw [not_not] at hid
    split
    · exact h
    · split
      · next hsame =>
        constructor
        · dsimp only
          rw [List.filterMap_append, List.filterMap_cons,
            rowIdentity_of (Readings.mem_resultsFrom hp).1, List.filterMap_nil]
          exact h.covered.take hsame.2
        · intro i hi
          cases List.mem_append.mp hi with
          | inl hi => exact h.follows i hi
          | inr hi =>
            rw [List.mem_singleton.mp hi]
            refine ⟨hcursor, follows_of_mem hcall hrole ?_ hid⟩
            rw [Nat.sub_add_cancel (by omega)]
            exact hp
      · exact h

theorem resultsAtCursor_sound {call : M} (hcursor : 1 ≤ run.cursor)
    (hcall : run.messages[run.cursor.toNat - 1]? = some call)
    (hrole : e.host.role call = "assistant") {rest : List (M × Nat)} :
    rest ⊆ e.host.resultsFrom run.messages run.cursor.toNat →
      ∀ {s : AtCursor R}, AtCursorSound e run base s.replayed s.counts →
      AtCursorSound e run base (rest.foldl (run.resultAtCursor e (e.host.callIds call)) s).replayed
        (rest.foldl (run.resultAtCursor e (e.host.callIds call)) s).counts := by
  induction rest with
  | nil => exact fun _ _ h => h
  | cons p rest ih =>
    intro hsub s h
    apply ih fun x hx => hsub (List.mem_cons_of_mem _ hx)
    exact resultAtCursor_sound hcursor hcall hrole (hsub List.mem_cons_self) h

theorem replayedResultsAtCursor_sound : AtCursorSound e run base
    (run.replayedResultsAtCursor e base).1 (run.replayedResultsAtCursor e base).2 := by
  have hnone : ∀ {c : Tally ReplayIdentity}, Covered base c [] → AtCursorSound e run base [] c :=
    fun h => ⟨h, fun i hi => by cases hi⟩
  unfold replayedResultsAtCursor
  split
  · exact hnone (.start base)
  · next hcursor =>
    dsimp only
    split
    · exact hnone (.start base)
    · next call hcall =>
      split
      · exact hnone (.start base)
      · next hproper =>
        rw [not_or, not_not] at hproper
        split
        · exact hnone (.start base)
        · split
          · exact hnone (.start base)
          · split
            · exact hnone (reserveUnspent_covered _ _ (.start base))
            · generalize hfollowing : (run.tail.drop _).takeWhile e.stored.isTool = following
              have hsound := resultsAtCursor_sound (by omega) hcall hproper.1 (fun _ h => h)
                (s := { storedResults := firstResults e following, counts := base }) (hnone (.start base))
              exact ⟨reserveUnspent_covered _ _ hsound.covered, hsound.follows⟩

/-! ## The scan -/

def ReplayedSegment.rows (g : ReplayedSegment) : List Nat := g.call :: g.results

/-- A replayed call has a result for each of its ids. -/
structure Whole (e : SegmentEngine M R) (run : SegmentRun M R) (g : ReplayedSegment) : Prop where
  after : run.cursor.toNat ≤ g.call
  call : ∃ c, run.messages[g.call]? = some c ∧ e.host.role c = "assistant" ∧ ∀ id ∈ e.host.callIds c, ∃ i ∈ g.results,
    ∃ m, run.messages[i]? = some m ∧ e.host.toolCallId m = id
  results : ∀ i ∈ g.results, Follows e run g.call i

structure Scanned (e : SegmentEngine M R) (run : SegmentRun M R) (base : Tally ReplayIdentity)
    (owned : Tally (ReplayIdentity × ReplayIdentity)) (atCursor : List Nat) (s : Scan) : Prop where
  identities : Covered base s.counts
    ((atCursor ++ s.segments.flatMap ReplayedSegment.rows).filterMap (run.rowIdentity e))
  pairs : Covered owned s.owned (s.segments.flatMap fun g => g.results.filterMap (run.pairAt e g.call))
  whole : ∀ g ∈ s.segments, Whole e run g

variable {owned : Tally (ReplayIdentity × ReplayIdentity)} {atCursor : List Nat}

theorem filterMap_places {β : Type} {l : List (M × Nat)} {f : Nat → Option β} {g : M × Nat → β}
    (h : ∀ p ∈ l, f p.2 = some (g p)) :
    (l.map Prod.snd).filterMap f = l.map g := by
  rw [List.filterMap_map, ← List.filterMap_eq_map]
  apply List.filterMap_congr
  exact fun p hp => h p hp

/-- One row of the scan claims only what is stored, a whole segment at a time. -/
theorem scanRow_scanned {p : M × Nat} (hp : p ∈ run.messages.zipIdx.drop run.cursor.toNat) {s : Scan}
    (h : Scanned e run base owned atCursor s) : Scanned e run base owned atCursor (run.scanRow e s p) := by
  obtain ⟨call, index⟩ := p
  have hcall : run.messages[index]? = some call := List.mem_zipIdx_iff_getElem?.mp (List.mem_of_mem_drop hp)
  have hafter : run.cursor.toNat ≤ index := by
    obtain ⟨n, hn⟩ := List.mem_iff_getElem?.mp hp
    rw [List.getElem?_drop, List.getElem?_zipIdx, Option.map_eq_some_iff] at hn
    obtain ⟨m, -, heq⟩ := hn
    have hindex := (Prod.mk.inj heq).2
    omega
  unfold scanRow
  dsimp only
  split
  · exact h
  · next hproper =>
    rw [not_or, not_not] at hproper
    have hrole : e.host.role call = "assistant" := by
      have hiscall := hproper.1
      simp only [Readings.isCall, decide_eq_true_eq] at hiscall
      exact hiscall.1
    split
    · next hcommit =>
      obtain ⟨-, hids, -, hcounts, howned⟩ := hcommit
      generalize hresults : e.host.resultsFrom run.messages (index + 1) = results at hids hcounts howned ⊢
      generalize hprovable : results.filter (run.provable e s.counts call index) = provable at hids hcounts howned ⊢
      have hmem : ∀ q ∈ provable, q ∈ e.host.resultsFrom run.messages (index + 1) ∧
          e.host.toolCallId q.1 ∈ e.host.callIds call := by
        intro q hq
        rw [← hprovable, ← hresults, List.mem_filter] at hq
        have hproof := hq.2
        simp only [SegmentRun.provable, decide_eq_true_eq] at hproof
        exact ⟨hq.1, hproof.1⟩
      have hsub := resultIndexes_subperm (e := e) provable
      have hchosen : ∀ q ∈ (resultIndexes e provable).rows.map Prod.snd, q ∈ provable := fun q hq => hsub.subset hq
      have hplace : ∀ q ∈ (resultIndexes e provable).rows.map Prod.snd, run.messages[q.2]? = some q.1 :=
        fun q hq => (Readings.mem_resultsFrom (hmem q (hchosen q hq)).1).1
      have hplaces : (resultIndexes e provable).rows.map (fun q => q.2.2) =
          ((resultIndexes e provable).rows.map Prod.snd).map Prod.snd := by
        rw [List.map_map]
        rfl
      have hidentities : (index :: (resultIndexes e provable).rows.map fun q => q.2.2).filterMap (run.rowIdentity e) =
          e.host.identity call :: ((resultIndexes e provable).rows.map Prod.snd).map fun q => e.host.identity q.1 := by
        rw [List.filterMap_cons, rowIdentity_of hcall, hplaces,
          filterMap_places fun q hq => rowIdentity_of (hplace q hq)]
      have hpairs : ((resultIndexes e provable).rows.map fun q => q.2.2).filterMap (run.pairAt e index) =
          (resultIndexes e provable).rows.map fun q => (e.host.identity call, e.host.identity q.2.1) := by
        rw [hplaces, filterMap_places fun q hq => pairAt_of hcall (hplace q hq), List.map_map]
        rfl
      constructor
      · dsimp only
        rw [List.flatMap_append, ← List.append_assoc, List.filterMap_append, List.flatMap_singleton,
          ReplayedSegment.rows]
        dsimp only
        rw [hidentities]
        refine h.identities.spend hcounts fun a => ?_
        -- The results that are overwritten are needed, and not replayed.
        rw [List.count_cons, List.count_cons]
        have hle : (((resultIndexes e provable).rows.map Prod.snd).map fun q => e.host.identity q.1).count a ≤
            (provable.map fun q => e.host.identity q.1).count a := by
          simpa only [List.count_eq_countP, List.countP_map] using hsub.countP_le
            ((· == a) ∘ fun q => e.host.identity q.1)
        omega
      · dsimp only
        rw [List.flatMap_append, List.flatMap_singleton]
        dsimp only
        rw [hpairs]
        exact h.pairs.spend howned fun a => le_rfl
      · intro g hg
        cases List.mem_append.mp hg with
        | inl hg => exact h.whole g hg
        | inr hg =>
          rw [List.mem_singleton.mp hg]
          refine ⟨hafter, ⟨call, hcall, hrole, fun id hid => ?_⟩, fun i hi => ?_⟩
          · have hsome := List.all_eq_true.mp hids id hid
            obtain ⟨q, hq⟩ := Option.isSome_iff_exists.mp hsome
            have hrow := KeyedTable.get_eq_some.mp hq
            exact ⟨q.2, List.mem_map.mpr ⟨_, hrow, rfl⟩, q.1,
              hplace q (List.mem_map.mpr ⟨_, hrow, rfl⟩), (resultIndexes_rows _ _ hrow).2⟩
          · dsimp only at hi
            rw [hplaces, List.mem_map] at hi
            obtain ⟨q, hq, rfl⟩ := hi
            obtain ⟨hin, hid⟩ := hmem q (hchosen q hq)
            exact follows_of_mem hcall hrole hin hid
    · exact h

end SegmentRun

end Reconcile
