import LcmX.ToolSegmentBounds

/-!
# Suppression is backed by stored copies

The rows that are returned are counted, by their identity and by the pair of a call
and its result. Each count stays below the stored copies that the prefix leaves.
-/
namespace Reconcile

open Tally

theorem countP_le_countP_filterMap {α β γ : Type} [DecidableEq α] [DecidableEq γ] {places : List α}
    (hplaces : places.Nodup) {q : α → Bool}
    {l : List β} (f : β → Option γ) (key : β → α) {b : γ}
    (h : ∀ i ∈ places, q i = true → ∃ x ∈ l, f x = some b ∧ key x = i) :
    places.countP q ≤ (l.filterMap f).countP fun c => c = b := by
  have hsub : places.filter q ⊆ (l.filter fun x => f x = some b).map key := by
    intro i hi
    obtain ⟨hin, hq⟩ := List.mem_filter.mp hi
    obtain ⟨x, hx, hfx, rfl⟩ := h i hin hq
    exact List.mem_map.mpr ⟨x, List.mem_filter.mpr ⟨hx, by simpa using hfx⟩, rfl⟩
  have hle := ((hplaces.filter q).subperm hsub).length_le
  have hcount : (l.filterMap f).countP (fun c => c = b) = (l.filter fun x => f x = some b).length := by
    rw [List.countP_filterMap, ← List.countP_eq_length_filter]
    apply List.countP_congr
    intro x _
    cases f x <;> simp
  rw [List.length_map] at hle
  rw [List.countP_eq_length_filter, hcount]
  exact hle

namespace SegmentRun

variable {M R : Type} (e : SegmentEngine M R) (run : SegmentRun M R)

/-! ## Counting the rows that are returned -/

def isToolAt (i : Nat) : Bool := (run.messages[i]?).any e.host.isTool

/-- The nearest row before `i` that is no tool row. -/
def ownerAt : Nat → Option Nat
  | 0 => none
  | i + 1 => if (run.messages[i]?).any fun m => ¬ e.host.isTool m then some i else ownerAt i

/-- The stored rows of an identity that can prove a replay. -/
def storedCopies (d : ReplayIdentity) : Nat := (run.storedRows e).countP fun row => e.stored.identity row = d

/-- The rows of an identity before the cursor that no held pair accounts for, the ignored ones apart. -/
def reservedCopies (d : ReplayIdentity) : Nat := (run.reservedRows e).countP fun m => e.host.identity m = d

def rowCount (rows : List Nat) (d : ReplayIdentity) : Nat :=
  (List.range run.messages.length).countP fun i => i ∈ rows ∧ run.rowIdentity e i = some d

/-- The results among the rows whose owner is one of `calls`, with the identities `p`. -/
def pairCount (rows : List Nat) (calls : Nat → Bool) (p : ReplayIdentity × ReplayIdentity) : Nat :=
  (List.range run.messages.length).countP fun i =>
    i ∈ rows ∧ run.isToolAt e i ∧ ∃ a ∈ run.ownerAt e i, calls a ∧ run.pairAt e a i = some p

/-- The stored results under a call. -/
def storedPairCopies (p : ReplayIdentity × ReplayIdentity) : Nat := (run.storedPairs e).countP fun q => q = p

def reservedPairCopies (p : ReplayIdentity × ReplayIdentity) : Nat := (run.reservedPairs e).countP fun q => q = p

def isCursorCall (a : Nat) : Bool := (a : Int) + 1 = run.cursor

/-- A call is returned with a result for each id, and a result with its call or behind the call at the cursor. -/
def Belongs (rows : List Nat) (i : Nat) : Prop :=
  ∃ m, run.messages[i]? = some m ∧
    ((e.host.role m = "assistant" ∧ ∀ id ∈ e.host.callIds m, ∃ j ∈ rows, run.ownerAt e j = some i ∧
        ∃ result, run.messages[j]? = some result ∧ e.host.isTool result = true ∧ e.host.toolCallId result = id) ∨
      (e.host.isTool m = true ∧ ∃ a, run.ownerAt e i = some a ∧ (a ∈ rows ∨ run.isCursorCall a = true) ∧
        ∃ call, run.messages[a]? = some call ∧ e.host.role call = "assistant" ∧
          e.host.toolCallId m ∈ e.host.callIds call))

variable {e run}

theorem Follows.ownerAt {call i : Nat} (h : Follows e run call i) : run.ownerAt e i = some call := by
  have hwalk : ∀ i, call < i → (∀ j, call < j → j < i → ∃ m, run.messages[j]? = some m ∧ e.host.isTool m = true) →
      run.ownerAt e i = some call := by
    intro i
    induction i with
    | zero => exact fun hlt => absurd hlt (Nat.not_lt_zero _)
    | succ i ih =>
      intro hlt htools
      rw [SegmentRun.ownerAt]
      obtain heq | hbefore := Nat.lt_succ_iff_lt_or_eq.mp hlt |>.symm
      · obtain ⟨c, -, hc, -⟩ := h.id
        have hcall := h.not_tool hc
        rw [← heq, hc, if_pos (by simp [hcall])]
      · obtain ⟨m, hm, htool⟩ := htools i hbefore (Nat.lt_succ_self i)
        rw [hm, if_neg (by simp [htool])]
        exact ih hbefore fun j hj hlt => htools j hj (by omega)
  exact hwalk i h.before fun j hj hlt => h.tools j hj hlt.le

theorem Follows.isTool {call i : Nat} (h : Follows e run call i) : ∃ m, run.messages[i]? = some m ∧
    e.host.isTool m = true :=
  h.tools i h.before le_rfl

/-! ## What the scan starts from -/

theorem count_identityCounts (d : ReplayIdentity) :
    (run.identityCounts e).count d = if hasLossyRedactedIdentity d then 0
      else (run.storedCopies e d : Int) - run.reservedCopies e d := by
  have hcount : ∀ {α : Type} (rows : List α) (f : α → ReplayIdentity),
    ((rows.map f).filter fun d => ¬ hasLossyRedactedIdentity d).count d =
      if hasLossyRedactedIdentity d then 0 else rows.countP fun a => f a = d := by
    intro α rows f
    split
    · next hlossy =>
      rw [List.count_eq_zero, List.mem_filter]
      simp [hlossy]
    · next hlossy =>
      rw [List.count_filter (by simpa using hlossy), List.count_eq_countP, List.countP_map]
      rfl
  rw [identityCounts, count_subtract, count_ofList, storedIdentities, reservedIdentities, hcount, hcount]
  split <;> rfl

theorem scan_start {atCursor : List Nat} {counts : Tally ReplayIdentity}
    (h : AtCursorSound e run (run.identityCounts e) atCursor counts)
    (owned : Tally (ReplayIdentity × ReplayIdentity)) :
    Scanned e run (run.identityCounts e) owned atCursor { counts := counts, owned := owned } where
  identities := by
    dsimp only
    rw [List.flatMap_nil, List.append_nil]
    exact h.covered
  pairs := .start owned
  whole := fun g hg => by cases hg

theorem scan_scanned {base : Tally ReplayIdentity} {owned : Tally (ReplayIdentity × ReplayIdentity)}
    {atCursor : List Nat}
    {rest : List (M × Nat)} : rest ⊆ run.messages.zipIdx.drop run.cursor.toNat →
      ∀ {s : Scan}, Scanned e run base owned atCursor s →
      Scanned e run base owned atCursor (rest.foldl (run.scanRow e) s) := by
  induction rest with
  | nil => exact fun _ _ h => h
  | cons p rest ih =>
    intro hsub s h
    exact ih (fun x hx => hsub (List.mem_cons_of_mem _ hx)) (scanRow_scanned (hsub List.mem_cons_self) h)

/-! ## The bounds -/

variable (e run) in
/-- What a whole scan has found. -/
theorem replayedSegments_sound : ∃ owned counts s,
    run.replayedSegments e = ((run.replayedResultsAtCursor e (run.identityCounts e)).1, s.segments) ∧
    AtCursorSound e run (run.identityCounts e) (run.replayedResultsAtCursor e (run.identityCounts e)).1 counts ∧
      owned = (run.ownedCounts e).subtract ((run.replayedResultsAtCursor e (run.identityCounts e)).1.filterMap
        (run.pairAt e (run.cursor.toNat - 1))) ∧
        Scanned e run (run.identityCounts e) owned (run.replayedResultsAtCursor e (run.identityCounts e)).1 s := by
  have hcursor : AtCursorSound e run (run.identityCounts e) _ _ := replayedResultsAtCursor_sound
  exact ⟨_, _, _, rfl, hcursor, rfl, scan_scanned (fun _ h => h) (scan_start hcursor _)⟩

theorem rowCount_le (rows : List Nat) (d : ReplayIdentity) :
    run.rowCount e rows d ≤ (rows.filterMap (run.rowIdentity e)).countP fun c => c = d := by
  refine countP_le_countP_filterMap List.nodup_range (run.rowIdentity e) id fun i _ hi => ?_
  simp only [decide_eq_true_eq] at hi
  exact ⟨i, hi.1, hi.2, rfl⟩

/-- Under any calls, the results of segments are counted with their segments. -/
theorem pairCount_le (rows : List Nat) (calls : Nat → Bool) (segments : List ReplayedSegment)
    (p : ReplayIdentity × ReplayIdentity)
    (h : ∀ i ∈ rows, run.isToolAt e i = true → ∀ a, run.ownerAt e i = some a → calls a = true →
      ∃ g ∈ segments, g.call = a ∧ i ∈ g.results) :
    run.pairCount e rows calls p ≤
    (segments.flatMap fun g => g.results.filterMap (run.pairAt e g.call)).countP fun q => q = p := by
  have hflat : (segments.flatMap fun g => g.results.filterMap (run.pairAt e g.call)) =
      (segments.flatMap fun g => g.results.map fun i => (g.call, i)).filterMap fun x => run.pairAt e x.1 x.2 := by
    rw [List.filterMap_flatMap]
    congr 1
    funext g
    rw [List.filterMap_map]
    rfl
  rw [hflat]
  refine countP_le_countP_filterMap List.nodup_range (fun x => run.pairAt e x.1 x.2) Prod.snd fun i _ hi => ?_
  simp only [decide_eq_true_eq] at hi
  obtain ⟨hin, htool, a, ha, hcall, hpair⟩ := hi
  obtain ⟨g, hg, rfl, hig⟩ := h i hin htool a ha hcall
  exact ⟨(g.call, i), List.mem_flatMap.mpr ⟨g, hg, List.mem_map.mpr ⟨i, hig, rfl⟩⟩, hpair, rfl⟩

section

variable {base counts : Tally ReplayIdentity} {owned : Tally (ReplayIdentity × ReplayIdentity)}
  {atCursor : List Nat} {s : Scan}

def foundRows (atCursor : List Nat) (s : Scan) : List Nat := atCursor ++ s.segments.flatMap ReplayedSegment.rows

theorem mem_foundRows {i : Nat} : i ∈ foundRows atCursor s ↔
    i ∈ atCursor ∨ ∃ g ∈ s.segments, i = g.call ∨ i ∈ g.results := by
  simp [foundRows, ReplayedSegment.rows]

/-- Everything that is found is behind the prefix. -/
theorem le_of_found (hcursor : AtCursorSound e run base atCursor counts)
    (hscan : Scanned e run base owned atCursor s) {i : Nat}
    (hi : i ∈ foundRows atCursor s) : run.cursor.toNat ≤ i := by
  obtain hat | ⟨g, hg, rfl | hresult⟩ := mem_foundRows.mp hi
  · have hbefore := (hcursor.follows i hat).2.before
    omega
  · exact (hscan.whole g hg).after
  · have hbefore := ((hscan.whole g hg).results i hresult).before
    have hafter := (hscan.whole g hg).after
    omega

/-- A result that is found is at the cursor, or in the segment of its owner. -/
theorem owner_of_found (hcursor : AtCursorSound e run base atCursor counts)
    (hscan : Scanned e run base owned atCursor s) {i : Nat}
    (hi : i ∈ foundRows atCursor s) (htool : run.isToolAt e i = true) :
    (i ∈ atCursor ∧ 1 ≤ run.cursor ∧ run.ownerAt e i = some (run.cursor.toNat - 1)) ∨
      ∃ g ∈ s.segments, i ∈ g.results ∧ run.ownerAt e i = some g.call := by
  obtain hat | ⟨g, hg, rfl | hresult⟩ := mem_foundRows.mp hi
  · have hfollows := hcursor.follows i hat
    exact .inl ⟨hat, hfollows.1, hfollows.2.ownerAt⟩
  · obtain ⟨c, hc, hrole, -⟩ := (hscan.whole g hg).call
    rw [isToolAt, hc, Option.any_some, Readings.isTool, hrole] at htool
    cases htool
  · exact .inr ⟨g, hg, hresult, ((hscan.whole g hg).results i hresult).ownerAt⟩

theorem found_pairs (hcursor : AtCursorSound e run base atCursor counts) (hscan : Scanned e run base owned atCursor s)
    (p : ReplayIdentity × ReplayIdentity) :
    (run.pairCount e (foundRows atCursor s) (fun a => a ∈ foundRows atCursor s) p : Int) ≤ max 0 (owned.count p) := by
  have hle := run.pairCount_le (e := e) (foundRows atCursor s) (fun a => a ∈ foundRows atCursor s) s.segments p ?_
  · have hbound := hscan.pairs.countP_bound p
    omega
  · intro i hi htool a ha hcall
    obtain ⟨-, hone, howner⟩ | ⟨g, hg, hresult, howner⟩ := owner_of_found hcursor hscan hi htool
    · -- The call before the cursor is not found.
      rw [howner, Option.some.injEq] at ha
      have hafter := le_of_found hcursor hscan (of_decide_eq_true hcall)
      omega
    · rw [howner, Option.some.injEq] at ha
      exact ⟨g, hg, ha, hresult⟩

theorem cursor_pairs (hcursor : AtCursorSound e run base atCursor counts) (hscan : Scanned e run base owned atCursor s)
    (p : ReplayIdentity × ReplayIdentity) : run.pairCount e (foundRows atCursor s) run.isCursorCall p ≤
      (atCursor.filterMap (run.pairAt e (run.cursor.toNat - 1))).countP fun q => q = p := by
  refine countP_le_countP_filterMap List.nodup_range (run.pairAt e (run.cursor.toNat - 1)) id fun i _ hi => ?_
  simp only [decide_eq_true_eq] at hi
  obtain ⟨hin, htool, a, ha, hcall, hpair⟩ := hi
  have hbefore : (a : Int) + 1 = run.cursor := of_decide_eq_true hcall
  obtain ⟨hat, -, -⟩ | ⟨g, hg, -, howner⟩ := owner_of_found hcursor hscan hin htool
  · have hplace : a = run.cursor.toNat - 1 := by omega
    subst hplace
    exact ⟨i, hat, hpair, rfl⟩
  · rw [Option.mem_def, howner, Option.some.injEq] at ha
    have hafter := (hscan.whole g hg).after
    omega

theorem found_belongs (hcursor : AtCursorSound e run base atCursor counts)
    (hscan : Scanned e run base owned atCursor s) {i : Nat}
    (hi : i ∈ foundRows atCursor s) : run.Belongs e (foundRows atCursor s) i := by
  have hresult : ∀ {call}, Follows e run call i → call ∈ foundRows atCursor s ∨ run.isCursorCall call = true →
      run.Belongs e (foundRows atCursor s) i := by
    intro call h hcall
    obtain ⟨m, hm, htool⟩ := h.isTool
    obtain ⟨c, m', hc, hm', hrole, hid⟩ := h.id
    rw [hm] at hm'
    cases hm'
    exact ⟨m, hm, .inr ⟨htool, call, h.ownerAt, hcall, c, hc, hrole, hid⟩⟩
  obtain hat | ⟨g, hg, rfl | hin⟩ := mem_foundRows.mp hi
  · obtain ⟨hone, hfollows⟩ := hcursor.follows i hat
    refine hresult hfollows (.inr ?_)
    rw [isCursorCall, decide_eq_true_eq]
    omega
  · obtain ⟨c, hc, hrole, hids⟩ := (hscan.whole g hg).call
    refine ⟨c, hc, .inl ⟨hrole, fun id hid => ?_⟩⟩
    obtain ⟨j, hj, m, hm, hmid⟩ := hids id hid
    have hfollows := (hscan.whole g hg).results j hj
    obtain ⟨m', hm', htool⟩ := hfollows.isTool
    rw [hm] at hm'
    cases hm'
    exact ⟨j, mem_foundRows.mpr (.inr ⟨g, hg, .inr hj⟩), hfollows.ownerAt, m, hm, htool, hmid⟩
  · exact hresult ((hscan.whole g hg).results i hin) (.inl (mem_foundRows.mpr (.inr ⟨g, hg, .inl rfl⟩)))

end

/-- The rows that are returned are backed by stored copies that the prefix does not account for. -/
theorem replayed_backed (e : SegmentEngine M R) (run : SegmentRun M R) :
    (∀ d, (run.rowCount e (run.replayedToolSegmentIndexesAfterCursor e) d : Int) ≤
      max 0 ((run.storedCopies e d : Int) - run.reservedCopies e d)) ∧
    (∀ p, (run.pairCount e (run.replayedToolSegmentIndexesAfterCursor e)
    (fun a => a ∈ run.replayedToolSegmentIndexesAfterCursor e) p : Int) ≤
      max 0 ((run.storedPairCopies e p : Int) - run.reservedPairCopies e p -
        run.pairCount e (run.replayedToolSegmentIndexesAfterCursor e) run.isCursorCall p)) ∧
    ∀ i ∈ run.replayedToolSegmentIndexesAfterCursor e,
      run.Belongs e (run.replayedToolSegmentIndexesAfterCursor e) i := by
  obtain ⟨owned, counts, s, hrun, hcursor, howned, hscan⟩ := replayedSegments_sound e run
  generalize (run.replayedResultsAtCursor e (run.identityCounts e)).1 = atCursor at hrun hcursor howned hscan
  have hrows : run.replayedToolSegmentIndexesAfterCursor e = [] ∨
      run.replayedToolSegmentIndexesAfterCursor e = foundRows atCursor s := by
    unfold replayedToolSegmentIndexesAfterCursor
    split
    · exact .inl rfl
    · rw [hrun]
      exact .inr rfl
  generalize run.replayedToolSegmentIndexesAfterCursor e = rows at hrows ⊢
  obtain rfl | rfl := hrows
  · simp [rowCount, pairCount]
  · refine ⟨fun d => ?_, fun p => ?_, fun i hi => found_belongs hcursor hscan hi⟩
    · have hle := run.rowCount_le (e := e) (foundRows atCursor s) d
      have hbound := hscan.identities.countP_bound d
      rw [count_identityCounts] at hbound
      unfold foundRows at hle ⊢
      split at hbound <;> omega
    · have hbound := found_pairs hcursor hscan p
      have hle := cursor_pairs hcursor hscan p
      have hcount : owned.count p = (run.storedPairCopies e p : Int) - run.reservedPairCopies e p -
          ((atCursor.filterMap (run.pairAt e (run.cursor.toNat - 1))).countP fun q => q = p : Nat) := by
        rw [howned, ownedCounts, count_subtract, count_subtract, count_ofList]
        rfl
      omega

end SegmentRun

/-! ## Where the prefix is not counted in full -/

/-- A row as the host or the store has it. -/
structure SegmentRow where
  storeId : Int := 0
  role : String
  content : String
  ids : List String := []
  toolCallId : String := ""
  ignored : Bool := false
deriving DecidableEq

def rowReadings : Readings SegmentRow where
  role := SegmentRow.role
  content := SegmentRow.content
  replayIdentity row _ := ⟨row.role, row.content, row.toolCallId, String.join row.ids, ""⟩
  toolCalls row := row.ids.map some
  toolCallId := SegmentRow.toolCallId
  matchesIgnoreMessagePatterns := SegmentRow.ignored
  stamp _ := none

def segmentEngine : SegmentEngine SegmentRow SegmentRow where
  host := rowReadings
  stored := rowReadings
  messageUid _ := none
  storeId := SegmentRow.storeId
  isHermesPersistedOutputMarker _ := false
  isStoredNonstringContent _ := false
  identityAnchorEnabled := false
  outputMetadata := none

def askRow (id : Int) (content : String) : SegmentRow :=
  { storeId := id, role := "assistant", content := content, ids := ["c"] }

def answerRow (id : Int) : SegmentRow := { storeId := id, role := "tool", content := "ok", toolCallId := "c" }

def secretRow (row : SegmentRow) : SegmentRow := { row with ignored := true }

/-- The prefix shows a call twice, and the ledger has bound the second one to the first stored copy. The other stored
result is under a call with other arguments. -/
def reusedRun : SegmentRun SegmentRow SegmentRow where
  messages := [askRow 0 "ls", answerRow 0, askRow 0 "ls", answerRow 0]
  cursor := 3
  session := [askRow 1 "ls", answerRow 2, askRow 3 "rm", answerRow 4]
  consumedPairs := KeyedTable.empty.assign 2 1

/-- Ignored rows of the prefix, shown again behind it. -/
def ignoredRun : SegmentRun SegmentRow SegmentRow where
  messages := [secretRow (askRow 0 "ls"), secretRow (answerRow 0), askRow 0 "ls", answerRow 0]
  cursor := 2
  session := [askRow 1 "ls", answerRow 2]

/-- A call of the prefix that is not stored. -/
def unstoredRun : SegmentRun SegmentRow SegmentRow where
  messages := [askRow 0 "ls", answerRow 0]
  cursor := 1
  session := [askRow 1 "rm"]

/-- The rows of an identity before the cursor that no held pair accounts for, with the ignored ones. -/
def SegmentRun.shownCopies {M R : Type} (e : SegmentEngine M R) (run : SegmentRun M R) (d : ReplayIdentity) : Nat :=
  run.prefixRows.countP fun p => p.2 ∉ run.held e ∧
    (e.host.role p.1 = "assistant" ∨ e.host.role p.1 = "tool") ∧ e.host.identity p.1 = d

/-- A result at the cursor is not checked against its pair, an ignored row of the prefix is not counted, and a call that
is not stored is counted below nothing. -/
theorem prefix_outweighed :
    reusedRun.replayedToolSegmentIndexesAfterCursor segmentEngine = [3] ∧
    (∃ p, (reusedRun.storedPairCopies segmentEngine p : Int) - reusedRun.reservedPairCopies segmentEngine p <
      reusedRun.pairCount segmentEngine [3] (fun _ => true) p) ∧
    ignoredRun.replayedToolSegmentIndexesAfterCursor segmentEngine = [2, 3] ∧
    (∃ d, hasLossyRedactedIdentity d = false ∧
      (ignoredRun.storedCopies segmentEngine d : Int) - ignoredRun.shownCopies segmentEngine d <
      ignoredRun.rowCount segmentEngine [2, 3] d) ∧
    unstoredRun.replayedToolSegmentIndexesAfterCursor segmentEngine = [] ∧
    ∃ d, hasLossyRedactedIdentity d = false ∧
      (unstoredRun.storedCopies segmentEngine d : Int) - unstoredRun.shownCopies segmentEngine d <
      unstoredRun.rowCount segmentEngine [] d := by
  refine ⟨?_, ⟨(rowReadings.identity (askRow 0 "ls"), rowReadings.identity (answerRow 0)), ?_⟩, ?_,
    ⟨rowReadings.identity (askRow 0 "ls"), ?_⟩, ?_, ⟨rowReadings.identity (askRow 0 "ls"), ?_⟩⟩ <;> decide +kernel

end Reconcile
