import LcmX.PemMarkers

/-!
# No BEGIN line is stepped over

Every round of the scanner moves on, and no jump passes a BEGIN line: blank lines,
headers, key material and END lines are all of other kinds, inside a block and
outside of one.
-/
namespace Pem

open Regex PyText

section

variable {text : List Char} {model : List PemLine} {b : Nat}

/-- A line that is a BEGIN marker. -/
def BeginsAt (model : List PemLine) (b : Nat) : Prop := kindAt model b = some .beginMarker

/-- No line of another kind is at this place: there is a BEGIN line, or the model has ended. -/
def Bars (model : List PemLine) (b : Nat) : Prop := ∀ line, model[b]? = some line → line.kind = .beginMarker

theorem BeginsAt.bars (h : BeginsAt model b) : Bars model b := by
  intro line hline
  rw [BeginsAt, kindAt, hline] at h
  exact Option.some.inj h

theorem bars_length (model : List PemLine) : Bars model model.length := by
  intro line hline
  rw [List.getElem?_eq_none (Nat.le_refl _)] at hline
  cases hline

theorem kind_ne_of_line {j : Nat} {line : PemLine} (h : Bars model b) (hj : model[j]? = some line)
    (hkind : line.kind ≠ .beginMarker) : j ≠ b := by
  rintro rfl
  exact hkind (h line hj)

theorem kind_ne_of_effective {j : Nat} {kind : LineKind} (h : Bars model b)
    (hj : effectiveKindAt text model j = some kind)
    (hkind : kind ≠ .beginMarker) : j ≠ b := by
  obtain ⟨line, hline, heffective⟩ := Option.map_eq_some_iff.mp hj
  refine kind_ne_of_line h hline fun hbegin => hkind ?_
  rw [← heffective, effectiveKind, hbegin, if_pos (by decide)]

theorem kind_ne_of_kind {j : Nat} {kind : LineKind} (h : Bars model b) (hj : kindAt model j = some kind)
    (hkind : kind ≠ .beginMarker) : j ≠ b := by
  obtain ⟨line, hline, rfl⟩ := Option.map_eq_some_iff.mp hj
  exact kind_ne_of_line h hline hkind

/-! ## The jumps inside a block -/

theorem pastArmor_le (h : Bars model b) (limit : Nat) : ∀ {j}, j ≤ b → j ≤ pastArmor text model limit j ∧
    pastArmor text model limit j ≤ b := by
  induction limit with
  | zero => exact fun hj => ⟨Nat.le_refl _, hj⟩
  | succ limit ih =>
    intro j hj
    rw [pastArmor]
    split
    · next harmor =>
      have hne := kind_ne_of_effective h harmor (by decide)
      have hnext := @ih (j + 1) (by omega)
      exact ⟨by omega, hnext.2⟩
    · exact ⟨Nat.le_refl _, hj⟩

theorem pastBlank_le (h : Bars model b) (fuel : Nat) : ∀ {j}, j ≤ b → j ≤ pastBlank model fuel j ∧
    pastBlank model fuel j ≤ b := by
  induction fuel with
  | zero => exact fun hj => ⟨Nat.le_refl _, hj⟩
  | succ fuel ih =>
    intro j hj
    rw [pastBlank]
    split
    · next hblank =>
      have hne := kind_ne_of_kind h hblank (by decide)
      have hnext := @ih (j + 1) (by omega)
      exact ⟨by omega, hnext.2⟩
    · exact ⟨Nat.le_refl _, hj⟩

theorem bodyStart_le (h : Bars model b) {j : Nat} (hj : j ≤ b) : j ≤ bodyStart text model j ∧
    bodyStart text model j ≤ b := by
  have hfirst := pastBlank_le h model.length hj
  simp only [bodyStart]
  split
  · next hremnant =>
    rw [isBlankRemnant] at hremnant
    split at hremnant
    · cases hremnant
    · next line hline =>
      have hkind : line.kind = .other := (of_decide_eq_true hremnant).1
      have hne := kind_ne_of_line h hline (by rw [hkind]; decide)
      have hnext := @pastBlank_le _ _ h model.length (pastBlank model model.length j + 1) (by omega)
      exact ⟨by omega, hnext.2⟩
  · exact hfirst

/-- What a body scan has seen stands between the start of the body and the next line. -/
structure BodyScan.Within (start j : Nat) (s : BodyScan) : Prop where
  evidence : s.sawB64 = true → start ≤ s.lastEvidence ∧ s.lastEvidence < j
  pending : ∀ p ∈ s.pendingShorts, start ≤ p.1 ∧ p.1 < j

theorem BodyScan.Within.next {start j : Nat} {s : BodyScan} (h : s.Within start j) : s.Within start (j + 1) where
  evidence hsaw := ⟨(h.evidence hsaw).1, Nat.lt_succ_of_lt (h.evidence hsaw).2⟩
  pending p hp := ⟨(h.pending p hp).1, Nat.lt_succ_of_lt (h.pending p hp).2⟩

/-- Scanning a body stays between its start and the next bar. -/
theorem scanBody_le (h : Bars model b) {start : Nat} (fuel : Nat) : ∀ {j : Nat} {s : BodyScan}, start ≤ j → j ≤ b →
    s.Within start j → start ≤ (scanBody text model fuel j s).1 ∧ (scanBody text model fuel j s).1 ≤ b ∧
      (scanBody text model fuel j s).2.Within start (scanBody text model fuel j s).1 := by
  induction fuel with
  | zero => exact fun hstart hj hs => ⟨hstart, hj, hs⟩
  | succ fuel ih =>
    intro j s hstart hj hs
    have hnext : ∀ {kind : LineKind} {t : BodyScan}, effectiveKindAt text model j = some kind → kind ≠ .beginMarker →
        t.Within start (j + 1) → start ≤ (scanBody text model fuel (j + 1) t).1 ∧
          (scanBody text model fuel (j + 1) t).1 ≤ b ∧
          (scanBody text model fuel (j + 1) t).2.Within start (scanBody text model fuel (j + 1) t).1 := by
      intro kind t hkind hne ht
      have := kind_ne_of_effective h hkind hne
      exact ih (by omega) (by omega) ht
    have hevidence : ∀ strict, BodyScan.Within start (j + 1) ⟨true, strict, j, s.pendingShorts⟩ := fun _ =>
      ⟨fun _ => ⟨hstart, Nat.lt_succ_self j⟩, hs.next.pending⟩
    rw [scanBody]
    split
    · exact ⟨hstart, hj, hs⟩
    · next line hline =>
      have hat : effectiveKindAt text model j = some (effectiveKind text line) := by rw [effectiveKindAt, hline]; rfl
      split
      · next hkind => exact hnext (hkind ▸ hat) (by decide) (hevidence true)
      · next hkind => exact hnext (hkind ▸ hat) (by decide) (hevidence true)
      · next hkind =>
        refine hnext (hkind ▸ hat) (by decide) ?_
        split
        · exact hevidence _
        · refine ⟨hs.next.evidence, fun p hp => ?_⟩
          rcases List.mem_append.mp hp with hp | hp
          · exact hs.next.pending p hp
          · rw [List.mem_singleton.mp hp]
            exact ⟨hstart, Nat.lt_succ_self j⟩
      · next hkind =>
        refine hnext (hkind ▸ hat) (by decide) ?_
        split
        · exact hs.next
        · exact ⟨hs.next.evidence, by simp⟩
      · exact ⟨hstart, hj, hs⟩

theorem finish_within {start j : Nat} {s : BodyScan} (h : s.Within start j) (hsaw : s.finish.sawB64 = true) :
    start ≤ s.finish.lastEvidence ∧ s.finish.lastEvidence < j := by
  rw [BodyScan.finish] at hsaw ⊢
  split
  · next hshorts =>
    obtain ⟨p, hp⟩ : ∃ p, s.pendingShorts.getLast? = some p := by
      cases hlast : s.pendingShorts.getLast? with
      | some p => exact ⟨p, rfl⟩
      | none =>
        rw [List.getLast?_eq_none_iff.mp hlast] at hshorts
        simp at hshorts
    simp only [hp, Option.map_some, Option.getD_some]
    exact h.pending p (List.mem_of_getLast? hp)
  · next hshorts =>
    rw [if_neg hshorts] at hsaw
    exact h.evidence hsaw

/-! ## One round -/

/-- The scanner moves on and does not pass a line. -/
def MovesTo (b : Nat) (s t : ScanState) : Prop := s.i < t.i ∧ t.i ≤ b

theorem movesTo_next {s t : ScanState} (hb : s.i < b) : MovesTo b s (t.goTo (s.i + 1)) := ⟨Nat.lt_succ_self _, hb⟩

/-- A begin marker moves the scan on, not beyond the bar. -/
theorem beginStep_moves (h : Bars model b) {s : ScanState} (hb : s.i < b) (line : PemLine) :
    MovesTo b s (beginStep text model s line) := by
  have harmor := @pastArmor_le text model b h 5 (s.i + 1) hb
  have hstart := @bodyStart_le text model b h _ harmor.2
  have hscan := @scanBody_le text model b h _ model.length _ ⟨false, false, 0, []⟩
    (Nat.le_refl _) hstart.2 ⟨by simp, by simp⟩
  rw [beginStep]
  split
  · exact movesTo_next hb
  · generalize scanBody text model model.length (bodyStart text model (pastArmor text model 5 (s.i + 1)))
      ⟨false, false, 0, []⟩ = scanned at hscan
    obtain ⟨j, body⟩ := scanned
    simp only
    split
    · next stop hstop =>
      obtain ⟨hline, hend⟩ := Option.filter_eq_some_iff.mp hstop
      have hne := kind_ne_of_line h hline (by
        rintro hkind
        rw [hkind] at hend
        exact absurd hend (by decide))
      have hle := hscan.2.1
      simp only at hle hscan
      exact ⟨by simp only [ScanState.goTo]; omega, by simp only [ScanState.goTo]; omega⟩
    · split
      · next hsaw =>
        have hevidence := finish_within hscan.2.2 hsaw
        have hle := hscan.2.1
        simp only at hle hevidence
        exact ⟨by simp only [ScanState.goTo]; omega, by simp only [ScanState.goTo]; omega⟩
      · split
        · split <;> exact movesTo_next hb
        · exact movesTo_next hb

theorem runEnd_le (h : Bars model b) (fuel : Nat) : ∀ {j : Nat} {strict : Bool}, j < b →
    j ≤ (runEnd model fuel j strict).1 ∧ (runEnd model fuel j strict).1 < b := by
  induction fuel with
  | zero => exact fun hj => ⟨Nat.le_refl _, hj⟩
  | succ fuel ih =>
    intro j strict hj
    rw [runEnd]
    split
    · next kind hkind =>
      split
      · next hbody =>
        have hne : j + 1 ≠ b := kind_ne_of_kind h hkind fun hbegin => by
          rw [hbegin] at hbody
          exact absurd hbody (by decide)
        have hnext := @ih (j + 1) (strict || kind ≠ .shortB64) (by omega)
        exact ⟨by omega, hnext.2⟩
      · exact ⟨Nat.le_refl _, hj⟩
    · exact ⟨Nat.le_refl _, hj⟩

theorem orphanStep_moves (h : Bars model b) {s : ScanState} (hb : s.i < b) (line : PemLine) :
    MovesTo b s (orphanStep model s line) := by
  have hrun := @runEnd_le model b h model.length s.i (decide (line.kind ≠ .shortB64)) hb
  rw [orphanStep]
  generalize runEnd model model.length s.i (decide (line.kind ≠ .shortB64)) = run at hrun
  obtain ⟨j, strict⟩ := run
  simp only at hrun ⊢
  have hnext : ∀ t : ScanState, MovesTo b s (t.goTo (j + 1)) := fun _ => ⟨Nat.lt_succ_of_le hrun.1, hrun.2⟩
  split
  · next stop hstop =>
    split
    · next hend =>
      have hne := kind_ne_of_line h hstop (by
        rcases hend.2 with hkind | hkind <;> rw [hkind] <;> decide)
      exact ⟨by simp only [ScanState.goTo]; omega, by simp only [ScanState.goTo]; omega⟩
    · split <;> exact hnext _
  · exact hnext _

theorem oneLineStep_moves {s : ScanState} (hb : s.i < b) (line : PemLine) : MovesTo b s (oneLineStep text s line) := by
  rw [oneLineStep]
  split
  · exact movesTo_next hb
  · simp only
    split
    · exact movesTo_next hb
    · split <;> exact movesTo_next hb

theorem endStep_moves {s : ScanState} (hb : s.i < b) (line : PemLine) : MovesTo b s (endStep text model s line) := by
  rw [endStep]
  generalize scanBack text model s.backFloor s.i false none = back
  obtain ⟨saw, first⟩ := back
  simp only
  split
  · exact movesTo_next hb
  · split
    · exact oneLineStep_moves (s := { s with backFloor := max s.backFloor (s.i + 1) }) hb line
    · exact movesTo_next hb

theorem step_moves (h : Bars model b) {s : ScanState} (hb : s.i < b) (line : PemLine) :
    MovesTo b s (step text model s line) := by
  rw [step]
  split
  · exact beginStep_moves h hb line
  · exact orphanStep_moves h hb line
  · exact orphanStep_moves h hb line
  · exact orphanStep_moves h hb line
  · exact endStep_moves hb line
  · exact endStep_moves hb line
  · exact oneLineStep_moves hb line
  · rw [otherStep]
    split <;> exact movesTo_next hb
  · exact movesTo_next hb

/-! ## The whole scan -/

theorem inlineKeys_spans (contentEnd : Nat) (fuel : Nat) :
    ∀ start s, s.spans <+: (inlineKeys text contentEnd fuel start s).spans := by
  induction fuel with
  | zero => exact fun _ _ => List.prefix_rfl
  | succ fuel ih =>
    intro start s
    have hemit : ∀ start stop, s.spans <+: (s.emit start stop).spans := fun _ _ => List.prefix_append _ _
    rw [inlineKeys]
    split
    · split
      · exact List.prefix_rfl
      · simp only
        split
        · exact ih _ _
        · split
          · exact (hemit _ _).trans (ih _ _)
          · exact ih _ _
    · exact List.prefix_rfl

theorem oneLineStep_spans (s : ScanState) (line : PemLine) : s.spans <+: (oneLineStep text s line).spans := by
  rw [oneLineStep]
  split
  · exact List.prefix_rfl
  · simp only
    split
    · exact List.prefix_rfl
    · split
      · exact List.prefix_append _ _
      · exact List.prefix_rfl

/-- A step only adds spans. -/
theorem step_spans (s : ScanState) (line : PemLine) : s.spans <+: (step text model s line).spans := by
  have hemit : ∀ start stop i, s.spans <+: ((s.emit start stop).goTo i).spans := fun _ _ _ => List.prefix_append _ _
  have hgo : ∀ i, s.spans <+: (s.goTo i).spans := fun _ => List.prefix_rfl
  have horphan : s.spans <+: (orphanStep model s line).spans := by
    rw [orphanStep]
    simp only
    split
    · split
      · exact hemit _ _ _
      · split
        · exact hemit _ _ _
        · exact hgo _
    · exact hgo _
  have hend : s.spans <+: (endStep text model s line).spans := by
    rw [endStep]
    simp only
    split
    · exact List.prefix_append _ _
    · split
      · exact oneLineStep_spans { s with backFloor := max s.backFloor (s.i + 1) } line
      · exact List.prefix_rfl
  rw [step]
  split
  · rw [beginStep]
    simp only
    split
    · exact hgo _
    · split
      · exact hemit _ _ _
      · split
        · exact hemit _ _ _
        · split
          · split
            · exact hemit _ _ _
            · exact hgo _
          · exact hgo _
  · exact horphan
  · exact horphan
  · exact horphan
  · exact hend
  · exact hend
  · exact oneLineStep_spans s line
  · rw [otherStep]
    split
    · exact inlineKeys_spans _ _ _ _
    · exact hgo _
  · exact hgo _

theorem scan_spans (fuel : Nat) : ∀ s, s.spans <+: (scan text model fuel s).spans := by
  induction fuel with
  | zero => exact fun _ => List.prefix_rfl
  | succ fuel ih =>
    intro s
    rw [scan]
    split
    · exact List.prefix_rfl
    · next line _ => exact (step_spans s line).trans (ih _)

/-- The scanner comes to every BEGIN line. -/
theorem scan_visits {b : Nat} (h : BeginsAt model b) {line : PemLine} (hline : model[b]? = some line) (fuel : Nat) :
    ∀ s : ScanState, s.i ≤ b → b < s.i + fuel →
      ∃ t : ScanState, t.i = b ∧ (step text model t line).spans <+: (scan text model fuel s).spans := by
  induction fuel with
  | zero => exact fun s hle hlt => absurd hlt (by omega)
  | succ fuel ih =>
    intro s hle hlt
    by_cases hat : s.i = b
    · refine ⟨s, hat, ?_⟩
      rw [scan, hat, hline]
      exact scan_spans fuel _
    · have hb : s.i < b := by omega
      have hlength := (List.getElem?_eq_some_iff.mp hline).1
      obtain ⟨here, hhere⟩ : ∃ here, model[s.i]? = some here := ⟨_, List.getElem?_eq_getElem (by omega)⟩
      have hmoves := @step_moves text model b h.bars s hb here
      obtain ⟨t, ht, hspans⟩ := ih (step text model s here) hmoves.2 (by have := hmoves.1; omega)
      refine ⟨t, ht, ?_⟩
      rw [scan, hhere]
      exact hspans

end

end Pem
