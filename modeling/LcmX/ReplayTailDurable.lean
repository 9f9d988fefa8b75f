import LcmX.ReplayTail

/-!
# The restart matcher consumes durable rows only

Without registered snapshots, whatever kind of evidence accepts a cursor, it
has compared every row of the prefix with a stored row. The placeholders, the
scaffold and the ignored rows are left out of that comparison.
-/
namespace Reconcile

/-! ## What a comparison of identities says of one row -/

section

variable {α : Type} {f g : α → ReplayIdentity} {tail : List ReplayIdentity} {l : List α} {p : α}

theorem matchesStoreTailSuffix_mem (hmatch : matchesStoreTailSuffix tail (l.map f) (l.map g) = true) (hp : p ∈ l) :
    f p ∈ tail ∨ g p ∈ tail := by
  obtain ⟨j, hj, rfl⟩ := List.getElem_of_mem hp
  have hne : l ≠ [] := List.ne_nil_of_mem hp
  simp only [matchesStoreTailSuffix, List.map_eq_nil_iff, hne, false_or, if_false, List.length_map,
    Bool.decide_and, Bool.and_eq_true, decide_eq_true_eq, List.all_eq_true] at hmatch
  obtain ⟨hlen, hall⟩ := hmatch
  have hlast : j < (lastN l.length tail).length := by
    simp only [lastN, List.length_drop]
    omega
  have hmem : (lastN l.length tail)[j] ∈ tail := List.mem_of_mem_drop (List.getElem_mem hlast)
  have hplace : ((lastN l.length tail)[j], (g l[j], f l[j])) ∈
      (lastN l.length tail).zip ((l.map g).zip (l.map f)) := by
    rw [List.mem_iff_getElem]
    exact ⟨j, by simp [hj, hlast], by simp⟩
  have heither : (lastN l.length tail)[j] = g l[j] ∨ (lastN l.length tail)[j] = f l[j] := hall _ hplace
  cases heither with
  | inl heq => exact .inr (heq ▸ hmem)
  | inr heq => exact .inl (heq ▸ hmem)

theorem containsIdentityWindow_mem (hwindow : containsIdentityWindow tail (l.map f) (l.map g) = true) (hp : p ∈ l) :
    f p ∈ tail ∨ g p ∈ tail := by
  simp only [containsIdentityWindow, Bool.decide_and, Bool.and_eq_true, decide_eq_true_eq, List.any_eq_true] at hwindow
  obtain ⟨-, -, start, -, hat⟩ := hwindow
  -- a window is a part of the tail
  have hpart : ∀ {i}, i ∈ (tail.drop start).take (l.map f).length → i ∈ tail :=
    fun hi => List.mem_of_mem_drop (List.mem_of_mem_take hi)
  split at hat
  · have hmem : f p ∈ (tail.drop start).take (l.map f).length := by
      rw [of_decide_eq_true hat]
      exact List.mem_map_of_mem hp
    exact .inl (hpart hmem)
  · exact (matchesStoreTailSuffix_mem hat hp).imp hpart hpart

end

variable {M R : Type} (e : TailEngine M R)

namespace TailReplayRun

variable (run : TailReplayRun M R)

/-- A row that its identity has to account for. -/
def Consumable (p : M × Nat) : Prop :=
  run.isScaffold e p = false ∧ e.matchesIgnoreMessagePatterns p.1 = false ∧ run.isGeneratedPlaceholder e p = false

instance (p : M × Nat) : Decidable (run.Consumable e p) := inferInstanceAs (Decidable (_ ∧ _))

def consumableRows (cursor : Nat) : List (M × Nat) := (run.rows.take cursor).filter fun p => run.Consumable e p

/-- One of the row's identities is in the stored tail or in its cleaned-up view. -/
def StoredIdentity (p : M × Nat) : Prop :=
  run.activeIdentity e p ∈ run.durableReplayIdentities e ∨ run.literalIdentity e p ∈ run.durableReplayIdentities e

/-- The row and the stored row at its place are both persisted outputs, and agree on everything but the content. -/
def StoredPersistedOutput (cursor : Nat) (p : M × Nat) : Prop :=
  ∃ (rows : List R) (place : Nat) (row : R) (stored : ReplayIdentity),
    run.storedTail.rows = some rows ∧ (run.consumableRows e cursor)[place]? = some p ∧ rows[place]? = some row ∧
    run.storedTail.identities[place]? = some stored ∧
    isPersistedMarker e p = true ∧ e.storedRowHasDurablePersistedOutputMarker row = true ∧
    stored.role = (run.activeIdentity e p).role ∧ stored.toolCallId = (run.activeIdentity e p).toolCallId ∧
    stored.toolCalls = (run.activeIdentity e p).toolCalls ∧ stored.toolName = (run.activeIdentity e p).toolName

/-- Every row of the prefix that has to be accounted for is a stored one. -/
def PrefixStored (cursor : Nat) : Prop :=
  ∀ p ∈ run.consumableRows e cursor, run.StoredIdentity e p ∨ run.StoredPersistedOutput e cursor p

variable {e run}

theorem StoredIdentity.of_raw {p : M × Nat}
    (h : run.activeIdentity e p ∈ run.storedTail.identities ∨ run.literalIdentity e p ∈ run.storedTail.identities) :
    run.StoredIdentity e p :=
  h.imp (List.mem_append_left _) (List.mem_append_left _)

theorem StoredIdentity.of_sanitized {p : M × Nat}
    (h : run.activeIdentity e p ∈ run.sanitizedReplayTail e ∨ run.literalIdentity e p ∈ run.sanitizedReplayTail e) :
    run.StoredIdentity e p :=
  h.imp (List.mem_append_right _) (List.mem_append_right _)

end TailReplayRun

namespace TailReplayCandidate

variable {e} {c : TailReplayCandidate M R}

/-- The rows whose identities are compared are exactly those that are left when the placeholders are gone. -/
theorem identityMessages_eq : c.identityMessages e = c.run.consumableRows e c.cursor := by
  have hrows : c.nonPlaceholderMessages e = c.run.consumableRows e c.cursor := by
    simp only [nonPlaceholderMessages, visibleMessages, TailReplayRun.consumableRows,
      TailReplayRun.Consumable, messages,
      List.filter_filter]
    congr 1
    funext p
    simp only [Bool.not_eq_true, ← Bool.decide_and]
    exact decide_eq_decide.mpr and_rotate
  rw [← hrows, identityMessages]
  split
  · rfl
  · next hkept =>
    -- nothing was filtered out of the visible rows
    simp only [ne_eq, filteredPlaceholders, decide_eq_true_eq, not_or, not_lt] at hkept
    exact (List.filter_sublist.eq_of_length_le hkept.2).symm

theorem stored_of_sanitized (h : c.matchesSanitizedTail e = true) : c.run.PrefixStored e c.cursor := by
  intro p hp
  simp only [matchesSanitizedTail, Bool.decide_and, Bool.and_eq_true, decide_eq_true_eq] at h
  exact .inl (.of_sanitized (matchesStoreTailSuffix_mem h.2 (identityMessages_eq ▸ hp)))

theorem stored_of_raw (h : c.matchesRawTail e = true) : c.run.PrefixStored e c.cursor := by
  intro p hp
  exact .inl (.of_raw (matchesStoreTailSuffix_mem h (identityMessages_eq ▸ hp)))

theorem stored_of_window (h : c.matchesToolAnchoredStaleWindow e = true) : c.run.PrefixStored e c.cursor := by
  intro p hp
  rw [← identityMessages_eq] at hp
  simp only [matchesToolAnchoredStaleWindow, decide_eq_true_eq] at h
  obtain ⟨-, -, hsanitized | hraw⟩ := h
  · exact .inl (.of_sanitized (containsIdentityWindow_mem hsanitized hp))
  · exact .inl (.of_raw (containsIdentityWindow_mem hraw hp))

/-- The rows before the tool result are empty assistant rows of the store, and the result is a stored one. -/
theorem stored_of_toolResult (h : c.endsWithReplayedToolResult e = true) : c.run.PrefixStored e c.cursor := by
  intro p hp
  rw [← identityMessages_eq] at hp
  simp only [endsWithReplayedToolResult] at h
  split at h
  · next index _ =>
    simp only [Bool.decide_and, Bool.and_eq_true, decide_eq_true_eq, Option.all_eq_true, List.all_eq_true] at h
    obtain ⟨hlast, hresult, hbefore⟩ := h
    obtain ⟨j, hj, rfl⟩ := List.getElem_of_mem hp
    have hat : (c.candidatePrefix e)[j]? = some (c.run.activeIdentity e (c.identityMessages e)[j]) := by
      simp [candidatePrefix, List.getElem?_eq_getElem hj]
    have hlen : (c.candidatePrefix e).length = (c.identityMessages e).length := List.length_map _
    refine .inl (.inl ?_)
    by_cases heq : j = index
    · subst heq
      have hmem := hresult _ hat
      exact List.mem_append_left _ (List.mem_of_mem_filter hmem)
    · have hmem : c.run.activeIdentity e (c.identityMessages e)[j] ∈ (c.candidatePrefix e).take index := by
        rw [List.mem_take_iff_getElem]
        exact ⟨j, by omega, by simp [candidatePrefix]⟩
      exact (hbefore _ hmem).2.2
  · cases h

theorem stored_of_visible (h : c.matchesVisibleTail e = true) : c.run.PrefixStored e c.cursor := by
  intro p hp
  have hvisible : p ∈ c.visibleMessages e := by
    simp only [TailReplayRun.consumableRows, List.mem_filter, decide_eq_true_eq] at hp
    simp [visibleMessages, messages, hp.1, hp.2.1, hp.2.2.1]
  simp only [matchesVisibleTail, decide_eq_true_eq] at h
  obtain ⟨-, -, ⟨-, hsanitized⟩ | hraw⟩ := h
  · exact .inl (.of_sanitized (matchesStoreTailSuffix_mem hsanitized hvisible))
  · exact .inl (.of_raw (matchesStoreTailSuffix_mem hraw hvisible))

theorem persistedOutputPlace_some_true {p : M × Nat} {row : R} (h : persistedOutputPlace e p row = some true) :
    TailReplayRun.isPersistedMarker e p = true ∧ e.storedRowHasDurablePersistedOutputMarker row = true := by
  simp only [persistedOutputPlace] at h
  split at h
  · split at h
    · next hboth => exact ⟨hboth.1, hboth.2.1⟩
    · cases h
  · cases h

/-- Place by place a persisted output meets a stored one, and any other row has the stored identity. -/
theorem stored_of_persistedOutput (h : c.matchesDurablePersistedOutputFullReplay e = true) :
    c.run.PrefixStored e c.cursor := by
  intro p hp
  simp only [matchesDurablePersistedOutputFullReplay] at h
  split at h
  · cases h
  · next rows hrows =>
    simp only [decide_eq_true_eq] at h
    obtain ⟨-, hlen, -, -, hwild⟩ := h
    obtain ⟨j, hj, hat⟩ := List.getElem_of_mem hp
    have hmessages : (c.identityMessages e).length = c.run.storedTail.identities.length := by
      rw [← hlen, candidatePrefix, List.length_map]
    have haligned : rows.length = c.run.storedTail.identities.length := c.run.storedTail.aligned rows hrows
    rw [← identityMessages_eq] at hj hp
    have hat' : (c.identityMessages e)[j]? = some p := by
      rw [← hat, identityMessages_eq]
      exact List.getElem?_eq_getElem _
    have hrow : rows[j]? = some rows[j] := List.getElem?_eq_getElem (by omega)
    have hstored : c.run.storedTail.identities[j]? = some c.run.storedTail.identities[j] :=
      List.getElem?_eq_getElem (by omega)
    have hplace := congrArg (fun l => l[j]?) hwild
    simp only [candidatePrefix, List.zip, List.getElem?_map, List.getElem?_zipWith, hat', hrow,
      hstored, Option.map_some,
      Option.some.injEq] at hplace
    split at hplace
    · next hboth =>
      obtain ⟨hmarker, hdurable⟩ := persistedOutputPlace_some_true hboth
      simp only [persistedOutputDurableWildcard, ReplayIdentity.mk.injEq, true_and] at hplace
      obtain ⟨hrole, hcall, hcalls, hname⟩ := hplace
      exact .inr ⟨rows, j, _, _, hrows, identityMessages_eq ▸ hat', hrow, hstored, hmarker, hdurable,
        hrole.symm, hcall.symm, hcalls.symm, hname.symm⟩
    · exact .inl (.of_raw (.inl (hplace ▸ List.getElem_mem _)))

/-! ## Every kind of evidence -/

theorem hasRegisteredEngineSnapshot_eq_false (h : e.engineSnapshotDigests = []) :
    c.hasRegisteredEngineSnapshot e = false := by
  simp [hasRegisteredEngineSnapshot, h]

theorem hasDurableCompactedSnapshotReplay_eq_false (hengine : e.engineSnapshotDigests = [])
    (hended : e.sessionEndSnapshotDigests = []) : c.hasDurableCompactedSnapshotReplay e = false := by
  simp [hasDurableCompactedSnapshotReplay, hasRegisteredEngineSnapshot_eq_false hengine,
    TailReplayRun.sessionEndDigests, hended]

/-- The twelve kinds of evidence come down to five comparisons. -/
theorem stored_of_evidence (hengine : e.engineSnapshotDigests = []) (hended : e.sessionEndSnapshotDigests = [])
    (hrecoverable : c.hasUnrecoverablePersistedMarker e = false) (h : c.hasReplayEvidence e = true) :
    c.run.PrefixStored e c.cursor := by
  simp only [hasReplayEvidence, hasDurableCompactedSnapshotReplay_eq_false hengine hended, decide_eq_true_eq,
    Bool.false_eq_true, or_false] at h
  rcases h with h | h | h | h | h | h | h | h | h | h | h
  · simp only [hasEffectiveFullReplay, decide_eq_true_eq] at h
    exact stored_of_sanitized h.2.1
  · simp only [hasExternalizedSingletonReplay, decide_eq_true_eq] at h
    exact stored_of_raw h.1
  · simp only [hasPersistedMarkerSingletonReplay, decide_eq_true_eq] at h
    exact stored_of_raw h.1
  · simp only [hasDurablePersistedMarkerSuffixReplay, decide_eq_true_eq] at h
    exact h.1.elim stored_of_sanitized stored_of_raw
  · exact stored_of_persistedOutput h
  · -- the generations are compared only for outputs that cannot be recovered
    simp [hasInlineGenerationCleanupReplay, hrecoverable] at h
  · simp only [hasInlinePersistedGenerationSuffixReplay, decide_eq_true_eq] at h
    exact stored_of_sanitized h.1
  · simp only [hasToolIdAnchoredReplay, decide_eq_true_eq] at h
    obtain ⟨-, -, -, h | h | h | h⟩ := h
    · exact stored_of_sanitized h
    · exact stored_of_raw h
    · exact stored_of_window h
    · exact stored_of_toolResult h
  · simp only [hasRawFullReplay, decide_eq_true_eq] at h
    exact stored_of_raw h.2.1
  · simp only [hasScaffoldSuffixReplay, decide_eq_true_eq] at h
    exact stored_of_sanitized h.2.1
  · simp only [hasRawCleanupReplay, decide_eq_true_eq] at h
    exact stored_of_raw h.2.1

theorem stored_of_examine (hnative : e.nativeRecoverySnapshotDigests = []) (hengine : e.engineSnapshotDigests = [])
    (hended : e.sessionEndSnapshotDigests = []) (h : c.examine e ≠ .rejected) : c.run.PrefixStored e c.cursor := by
  simp only [examine, hnative, List.not_mem_nil, decide_false, Option.any_false, Bool.false_eq_true, if_false] at h
  split at h
  · next hempty =>
    intro p hp
    rw [candidatePrefix, List.map_eq_nil_iff, identityMessages_eq] at hempty
    rw [hempty] at hp
    cases hp
  · split at h
    · next hvisible => exact stored_of_visible hvisible.1
    · split at h
      · exact absurd rfl h
      · next hcompared =>
        split at h
        · next hevidence =>
          simp only [not_or, Bool.not_eq_true] at hcompared
          exact stored_of_evidence hengine hended hcompared.2 hevidence
        · exact absurd rfl h

end TailReplayCandidate

namespace TailReplayRun

variable {e} {run : TailReplayRun M R}

/-- The scan ends at a cursor that was not rejected, or at the one it started with in reserve. -/
theorem scan_examined {c : Nat} {cursors : List Nat} : ∀ {reserved : Option Nat}, run.scan e cursors reserved = some c →
    reserved = some c ∨ TailReplayCandidate.examine e ⟨run, c⟩ ≠ .rejected := by
  induction cursors with
  | nil =>
    intro reserved h
    rw [scan] at h
    split at h
    · exact .inl h
    · cases h
  | cons cursor cursors ih =>
    intro reserved h
    rw [scan] at h
    split at h
    · next hat =>
      cases h
      exact .inr (by simp [hat])
    · next hat =>
      cases ih h with
      | inl hreserved =>
        cases hreserved
        exact .inr (by simp [hat])
      | inr hrest => exact .inr hrest
    · exact ih h

/-- Without registered snapshots, every row before the cursor that is no scaffold, ignored or placeholder row has an
identity of the stored tail, or is a persisted output that the tail holds at its place. -/
theorem findReconciledCursor_consumes_stored (hnative : e.nativeRecoverySnapshotDigests = [])
    (hengine : e.engineSnapshotDigests = []) (hended : e.sessionEndSnapshotDigests = []) {c : Nat}
    (hfound : run.findReconciledCursorForStoreTail e = some c) :
    ∀ p ∈ run.rows.take c, run.Consumable e p → run.StoredIdentity e p ∨ run.StoredPersistedOutput e c p := by
  intro p hp hconsumable
  have hexamined : TailReplayCandidate.examine e ⟨run, c⟩ ≠ .rejected := by
    cases scan_examined hfound with
    | inl hreserved => cases hreserved
    | inr hexamined => exact hexamined
  have hstored : run.PrefixStored e c := TailReplayCandidate.stored_of_examine hnative hengine hended hexamined
  exact hstored p (List.mem_filter.mpr ⟨hp, decide_eq_true hconsumable⟩)

/-- A host without compaction: the messages are their own identities, and no pattern, placeholder or
payload is known. -/
def plainEngine : TailEngine ReplayIdentity ReplayIdentity where
  role := ReplayIdentity.role
  content := ReplayIdentity.content
  replayIdentity m _ := m
  replayOccurrences messages i := ⟨false, false, messages[i]?⟩
  fullReplayIdentity := id
  storedReplayIdentity := id
  activeCleanupReplayIdentity := some
  isQuarantinedAssistantReplayIdentity _ := false
  matchesIgnoreMessagePatterns _ := false
  matchesIgnoreStoredRow _ := false
  hasIgnoreMessagePatterns := false
  isVolatileIgnoredQuarantinePlaceholder _ := false
  isIgnoredActiveReplayPlaceholder _ := false
  isHermesPersistedOutputMarker _ := false
  recoversPersistedOutput _ := false
  hasInlinePersistedOutputGenerationMetadata _ := false
  hasDurablePersistedOutputReplayIdentity _ := false
  storedRowHasDurablePersistedOutputMarker _ := false
  hasExternalizedRef _ := false
  hasActiveLineage := false
  orderedStoreIds _ := []
  freshTailCount _ _ := 8
  sha256 _ := ""
  nativeRecoverySnapshotDigests := []
  engineSnapshotDigests := []
  sessionEndSnapshotDigests := []

def plainRow (role content : String) : ReplayIdentity := ⟨role, content, "", "", ""⟩

/-- A session of two stored rows that comes back with a new question. -/
def restartedRun : TailReplayRun ReplayIdentity ReplayIdentity where
  messages := [plainRow "user" "a", plainRow "assistant" "b", plainRow "user" "c"]
  storedTail := ⟨[plainRow "user" "a", plainRow "assistant" "b"], none, by simp⟩
  allowEmptyPrefix := false
  rawSessionCount := 2
  allowSessionEndReplayProof := false

theorem findReconciledCursor_restartedRun : restartedRun.findReconciledCursorForStoreTail plainEngine = some 2 ∧
    ∀ p ∈ restartedRun.rows.take 2, restartedRun.Consumable plainEngine p →
      restartedRun.StoredIdentity plainEngine p ∨ restartedRun.StoredPersistedOutput plainEngine 2 p := by
  have hfound : restartedRun.findReconciledCursorForStoreTail plainEngine = some 2 := by decide +kernel
  exact ⟨hfound, findReconciledCursor_consumes_stored rfl rfl rfl hfound⟩

end TailReplayRun

end Reconcile
