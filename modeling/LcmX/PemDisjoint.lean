import LcmX.PemOffsets
import LcmX.PemVisits

/-!
# The replaced spans are in order

What a round of the scanner replaces starts where the last replaced span ended, or later,
and it ends before the line that the scanner goes on with. So the spans cut the text
into pieces, and only the pieces of key material change.
-/
namespace Pem

open Regex PyText

/-- Spans one after the other, between two offsets. -/
def SpansInOrder : Nat → List (Nat × Nat) → Nat → Prop
  | low, [], high => low ≤ high
  | low, (start, stop) :: rest, high => low ≤ start ∧ start ≤ stop ∧ SpansInOrder stop rest high

theorem SpansInOrder.concat {spans : List (Nat × Nat)} {low high start stop : Nat} (h : SpansInOrder low spans high)
    (hstart : high ≤ start) (hstop : start ≤ stop) : SpansInOrder low (spans ++ [(start, stop)]) stop := by
  induction spans generalizing low with
  | nil => exact ⟨Nat.le_trans h hstart, hstop, Nat.le_refl _⟩
  | cons span spans ih => exact ⟨h.1, h.2.1, ih h.2.2⟩

theorem SpansInOrder.mono {spans : List (Nat × Nat)} {low high high' : Nat}
    (h : SpansInOrder low spans high) (hhigh : high ≤ high') :
    SpansInOrder low spans high' := by
  induction spans generalizing low with
  | nil => exact Nat.le_trans h hhigh
  | cons span spans ih => exact ⟨h.1, h.2.1, ih h.2.2⟩

/-- Replacing spans in order changes the pieces at the spans and nothing else. -/
theorem replaceSpans_pieces {text : List Char} {spans : List (Nat × Nat)} :
    ∀ {low : Nat}, SpansInOrder low spans text.length →
    ∃ (pieces : List (List Char × List Char)) (last : List Char),
      text.drop low = pieces.flatMap (fun piece => piece.1 ++ piece.2) ++ last ∧
      pieces.map Prod.snd = spans.map (fun span => slice text span.1 span.2) ∧
      ∀ placeholder, replaceSpans text placeholder low spans = pieces.flatMap
      (fun piece => piece.1 ++ placeholder piece.2) ++ last := by
  induction spans with
  | nil => exact fun {low} _ => ⟨[], text.drop low, rfl, rfl, fun _ => rfl⟩
  | cons span spans ih =>
    obtain ⟨start, stop⟩ := span
    intro low h
    obtain ⟨hstart, hstop, hrest⟩ := h
    obtain ⟨pieces, last, hdrop, hslices, hreplace⟩ := ih hrest
    refine ⟨(slice text low start, slice text start stop) :: pieces, last, ?_, ?_, fun placeholder => ?_⟩
    · have hsplit : ∀ {a b : Nat}, a ≤ b → text.drop a = slice text a b ++ text.drop b := by
        intro a b hab
        have hlater : text.drop b = (text.drop a).drop (b - a) := by rw [List.drop_drop, Nat.add_sub_cancel' hab]
        rw [hlater, slice, List.take_append_drop]
      rw [List.flatMap_cons, hsplit hstart, hsplit hstop, hdrop]
      simp only [List.append_assoc]
    · rw [List.map_cons, List.map_cons, hslices]
    · rw [replaceSpans, hreplace, List.flatMap_cons]
      simp only [List.append_assoc]

/-! ## The line model in order -/

structure Ordered (model : List PemLine) (length : Nat) : Prop where
  inside : ∀ {j : Nat} {line : PemLine}, model[j]? = some line →
    line.lineStart ≤ line.redactStart ∧ line.redactStart ≤ line.contentEnd ∧ line.contentEnd ≤ length
  marked : ∀ {j : Nat} {line : PemLine}, model[j]? = some line → line.Marked
  later : ∀ {j k : Nat} {line line' : PemLine}, j < k → model[j]? = some line →
    model[k]? = some line' → line.contentEnd ≤ line'.lineStart

theorem Laid.low_le_high {model : List PemLine} {low high : Nat} (h : Laid low model high) : low ≤ high := by
  induction model generalizing low with
  | nil => exact h
  | cons line rest ih => exact h.1.trans (h.2.1.trans (h.2.2.1.trans (ih h.2.2.2.2)))

theorem Laid.low_le {model : List PemLine} {low high j : Nat} {line : PemLine} (h : Laid low model high)
    (hline : model[j]? = some line) : low ≤ line.lineStart := by
  induction model generalizing low j with
  | nil => cases hline
  | cons first rest ih =>
    cases j with
    | zero =>
      cases hline
      exact h.1
    | succ j => exact h.1.trans (h.2.1.trans (h.2.2.1.trans (ih h.2.2.2.2 hline)))

theorem Laid.ordered {model : List PemLine} {low high : Nat} (h : Laid low model high) : Ordered model high := by
  induction model generalizing low with
  | nil => exact ⟨fun h => (by cases h), fun h => (by cases h), fun _ h _ => (by cases h)⟩
  | cons first rest ih =>
    have hrest := ih h.2.2.2.2
    refine ⟨fun {j line} hline => ?_, fun {j line} hline => ?_, fun {j k line line'} hjk hline hline' => ?_⟩
    · cases j with
      | zero =>
        cases hline
        exact ⟨h.2.1, h.2.2.1, h.2.2.2.2.low_le_high⟩
      | succ j => exact hrest.inside hline
    · cases j with
      | zero =>
        cases hline
        exact h.2.2.2.1
      | succ j => exact hrest.marked hline
    · cases k with
      | zero => cases hjk
      | succ k =>
        cases j with
        | zero =>
          cases hline
          exact h.2.2.2.2.low_le hline'
        | succ j => exact hrest.later (Nat.lt_of_succ_lt_succ hjk) hline hline'

/-- Where an END line closes a block is inside the line. -/
theorem PemLine.Marked.stop_within {line : PemLine} (h : line.Marked) (hend : isEndLine line.kind = true)
    (hle : line.redactStart ≤ line.contentEnd) :
    line.redactStart ≤ (if line.kind = .endMarker then line.contentEnd else line.markerEnd.getD 0) ∧
      (if line.kind = .endMarker then line.contentEnd else line.markerEnd.getD 0) ≤ line.contentEnd := by
  obtain ⟨m, hm, hlow, hhigh⟩ := h.ended hend
  rw [hm, Option.getD_some]
  split
  · exact ⟨hle, Nat.le_refl _⟩
  · exact ⟨hlow, hhigh⟩

/-! ## One round -/

/-- The lines from an index on are behind the offset. -/
def Ahead (model : List PemLine) (offset i : Nat) : Prop :=
  ∀ k line, i ≤ k → model[k]? = some line → offset ≤ line.redactStart ∧
    (line.kind ≠ .beginMarker → offset ≤ line.lineStart)

structure ScanState.Sound (model : List PemLine) (length : Nat) (s : ScanState) : Prop where
  spans : SpansInOrder 0 s.spans s.cursor
  le : s.cursor ≤ length
  ahead : Ahead model s.cursor s.i

section

variable {text : List Char} {model : List PemLine} {length : Nat} {s : ScanState} {line : PemLine}

theorem Ordered.ahead (ho : Ordered model length) {j i stop : Nat} (hline : model[j]? = some line) (hji : j < i)
    (hstop : stop ≤ line.contentEnd) : Ahead model stop i := by
  intro k line' hik hline'
  have hlater := ho.later (Nat.lt_of_lt_of_le hji hik) hline hline'
  have hinside := ho.inside hline'
  exact ⟨by omega, fun _ => by omega⟩

namespace ScanState.Sound

theorem goTo (h : s.Sound model length) {i : Nat} (hi : s.i ≤ i) : (s.goTo i).Sound model length where
  spans := h.spans
  le := h.le
  ahead k line hk hline := h.ahead k line (Nat.le_trans hi hk) hline

theorem emit (h : s.Sound model length) {start stop i : Nat} (hstart : s.cursor ≤ start)
    (hstop : start ≤ stop) (hlength : stop ≤ length)
    (hahead : Ahead model stop i) : ((s.emit start stop).goTo i).Sound model length where
  spans := h.spans.concat hstart hstop
  le := hlength
  ahead := hahead

/-- A span that ends in a line before the next one. -/
theorem emitIn (h : s.Sound model length) (ho : Ordered model length) {start stop i j : Nat} (hstart : s.cursor ≤ start)
    (hstop : start ≤ stop) (hline : model[j]? = some line) (hji : j < i) (hcontent : stop ≤ line.contentEnd) :
    ((s.emit start stop).goTo i).Sound model length :=
  h.emit hstart hstop (hcontent.trans (ho.inside hline).2.2) (ho.ahead hline hji hcontent)

end ScanState.Sound

/-- A begin marker keeps the spans ordered and apart. -/
theorem beginStep_sound (ho : Ordered model length) (h : s.Sound model length) (hline : model[s.i]? = some line) :
    (beginStep text model s line).Sound model length := by
  have hi : s.i < model.length := (List.getElem?_eq_some_iff.mp hline).1
  have hbars := bars_length model
  have harmor := @pastArmor_le text model _ hbars 5 (s.i + 1) hi
  have hbody := @bodyStart_le text model _ hbars _ harmor.2
  have hscan := @scanBody_le text model _ hbars _ model.length _ ⟨false, false, 0, []⟩
    (Nat.le_refl _) hbody.2 ⟨by simp, by simp⟩
  have hinside := ho.inside hline
  have hcursor : s.cursor ≤ line.redactStart := (h.ahead _ _ (Nat.le_refl _) hline).1
  have hnext : (s.goTo (s.i + 1)).Sound model length := h.goTo (Nat.le_succ _)
  rw [beginStep]
  split
  · exact hnext
  · generalize scanBody text model model.length (bodyStart text model (pastArmor text model 5 (s.i + 1)))
      ⟨false, false, 0, []⟩ = scanned at hscan
    obtain ⟨j, body⟩ := scanned
    simp only at hscan ⊢
    split
    · next stop hstop =>
      -- the block ends at its END line
      obtain ⟨hend, hkind⟩ := Option.filter_eq_some_iff.mp hstop
      have hwithin := (ho.marked hend).stop_within hkind (ho.inside hend).2.1
      have hlater := ho.later (by omega : s.i < j) hline hend
      have hendInside := ho.inside hend
      exact h.emitIn ho hcursor (by omega) hend (Nat.lt_succ_self j) hwithin.2
    · split
      · next hsaw =>
        -- the block ends with its last line of key material
        have hevidence := finish_within hscan.2.2 hsaw
        have hlast : body.finish.lastEvidence < model.length := by omega
        have hend := List.getElem?_eq_getElem hlast
        have hlater := ho.later (by omega : s.i < body.finish.lastEvidence) hline hend
        have hendInside := ho.inside hend
        rw [hend]
        exact h.emitIn ho hcursor (by simp only [Option.map_some, Option.getD_some]; omega) hend
          (Nat.lt_succ_self _) (Nat.le_refl _)
      · split
        · split
          · exact h.emitIn ho hcursor hinside.2.1 hline (Nat.lt_succ_self _) (Nat.le_refl _)
          · exact hnext
        · exact hnext

/-- An orphaned end keeps the spans ordered and apart. -/
theorem orphanStep_sound (ho : Ordered model length) (h : s.Sound model length) (hline : model[s.i]? = some line) :
    (orphanStep model s line).Sound model length := by
  have hi : s.i < model.length := (List.getElem?_eq_some_iff.mp hline).1
  have hrun := @runEnd_le model _ (bars_length model) model.length s.i (decide (line.kind ≠ .shortB64)) hi
  have hinside := ho.inside hline
  have hcursor : s.cursor ≤ line.redactStart := (h.ahead _ _ (Nat.le_refl _) hline).1
  rw [orphanStep]
  generalize runEnd model model.length s.i (decide (line.kind ≠ .shortB64)) = run at hrun
  obtain ⟨j, strict⟩ := run
  simp only at hrun ⊢
  have hnext : (s.goTo (j + 1)).Sound model length := h.goTo (by omega)
  split
  · next stop hstop =>
    have hlater := ho.later (by omega : s.i < j + 1) hline hstop
    have hstopInside := ho.inside hstop
    split
    · next hkey =>
      have hend : isEndLine stop.kind = true := by
        obtain hkind | hkind := hkey.2 <;> rw [hkind] <;> rfl
      have hwithin := (ho.marked hstop).stop_within hend hstopInside.2.1
      exact h.emitIn ho hcursor (by omega) hstop (Nat.lt_succ_self _) hwithin.2
    · split
      · next hkey =>
        -- the END half of the BEGIN line closes the run, and its BEGIN half is next
        obtain ⟨m, hm⟩ := Option.isSome_iff_exists.mp hkey.2.2
        have hmarked := (ho.marked hstop).begun hkey.2.1 m hm
        rw [hm, Option.getD_some]
        refine h.emit hcursor (by omega) (by omega) fun k line' hk hline' => ?_
        obtain rfl | hlt := Nat.eq_or_lt_of_le hk
        · rw [hstop] at hline'
          cases hline'
          exact ⟨hmarked.2, fun hne => absurd hkey.2.1 hne⟩
        · exact ho.ahead hstop hlt (by omega) k line' (Nat.le_refl _) hline'
      · exact hnext
  · exact hnext

theorem oneLineStep_sound (ho : Ordered model length) (h : s.Sound model length) (hline : model[s.i]? = some line) :
    (oneLineStep text s line).Sound model length := by
  have hcursor : s.cursor ≤ line.redactStart := (h.ahead _ _ (Nat.le_refl _) hline).1
  have hinside := ho.inside hline
  have hnext : (s.goTo (s.i + 1)).Sound model length := h.goTo (Nat.le_succ _)
  rw [oneLineStep]
  split
  · exact hnext
  · next stop hstop =>
    have hfound := search_within hstop
    have hslice : (slice text line.redactStart line.contentEnd).length ≤
        line.contentEnd - line.redactStart := List.length_take_le _ _
    simp only
    split
    · exact hnext
    · next run hrun =>
      split
      · have hwithin := finditer_within (List.mem_of_getLast? hrun)
        have hprobe : (slice text line.redactStart (line.redactStart + stop.start)).length ≤ stop.start := by
          rw [slice, Nat.add_sub_cancel_left]
          exact List.length_take_le _ _
        exact h.emitIn ho (by omega) (by omega) hline (Nat.lt_succ_self _) (by omega)
      · exact hnext

theorem scanBack_lt (floor back : Nat) : ∀ {saw : Bool} {first : Option Nat} {f : Nat},
    (scanBack text model floor back saw first).2 = some f → first = some f ∨ f < back := by
  induction back with
  | zero => exact fun h => .inl h
  | succ back ih =>
    intro saw first f h
    have hlater : ∀ {saw' first'}, (scanBack text model floor back saw' first').2 = some f →
      first' = some back ∨ first' = first →
        first = some f ∨ f < back + 1 := by
      intro saw' first' h' hfirst
      obtain heq | hlt := ih h'
      · obtain hhere | hsame := hfirst
        · rw [hhere] at heq
          cases heq
          exact .inr (Nat.lt_succ_self _)
        · exact .inl (hsame.symm.trans heq)
      · exact .inr (Nat.lt_succ_of_lt hlt)
    rw [scanBack] at h
    split at h
    · exact .inl h
    · split at h
      · exact hlater h (.inl rfl)
      · exact hlater h (.inl rfl)
      · exact hlater h (.inl rfl)
      · exact hlater h (.inr rfl)
      · exact .inl h

theorem endStep_sound (ho : Ordered model length) (h : s.Sound model length) (hline : model[s.i]? = some line)
    (hend : isEndLine line.kind = true) : (endStep text model s line).Sound model length := by
  have hback := @scanBack_lt text model s.backFloor s.i false none
  have hcursor : s.cursor ≤ line.redactStart := (h.ahead _ _ (Nat.le_refl _) hline).1
  have hinside := ho.inside hline
  have hwithin := (ho.marked hline).stop_within hend hinside.2.1
  -- the floor of the backward passes is of no concern to the spans
  have hfloor : ScanState.Sound model length { s with backFloor := max s.backFloor (s.i + 1) } :=
    ⟨h.spans, h.le, h.ahead⟩
  rw [endStep]
  generalize scanBack text model s.backFloor s.i false none = back at hback
  obtain ⟨saw, first⟩ := back
  simp only at hback ⊢
  split
  · next first =>
    have hfirst : first < s.i := by
      obtain hnone | hlt := hback rfl
      · cases hnone
      · exact hlt
    obtain ⟨early, hearly⟩ : ∃ early, model[first]? = some early :=
      ⟨_, List.getElem?_eq_getElem (Nat.lt_trans hfirst (List.getElem?_eq_some_iff.mp hline).1)⟩
    have hlater := ho.later hfirst hearly hline
    have hearlyInside := ho.inside hearly
    rw [hearly, Option.map_some, Option.getD_some]
    exact hfloor.emitIn ho (Nat.le_max_right _ _)
      (Nat.max_le.mpr ⟨by omega, by omega⟩) hline (Nat.lt_succ_self _) hwithin.2
  · split
    · exact oneLineStep_sound ho hfloor hline
    · exact hfloor.goTo (Nat.le_succ _)

/-- The keys in one line are in order and end with it. -/
theorem inlineKeys_sound (contentEnd fuel : Nat) : ∀ {start : Nat} {s : ScanState},
    SpansInOrder 0 s.spans s.cursor → s.cursor ≤ start →
    s.cursor ≤ contentEnd → SpansInOrder 0 (inlineKeys text contentEnd fuel start s).spans
    (inlineKeys text contentEnd fuel start s).cursor ∧
      (inlineKeys text contentEnd fuel start s).cursor ≤ contentEnd := by
  induction fuel with
  | zero => exact fun hspans _ hcontent => ⟨hspans, hcontent⟩
  | succ fuel ih =>
    intro start s hspans hstart hcontent
    rw [inlineKeys]
    split
    · next hlt =>
      split
      · exact ⟨hspans, hcontent⟩
      · next b hb =>
        have hbegin := search_within hb
        have hslice : (slice text start contentEnd).length ≤ contentEnd - start := List.length_take_le _ _
        simp only
        split
        · exact ih hspans (by omega) hcontent
        · next e he =>
          have hfound := search_within he
          have hrest : (slice text (start + b.stop) contentEnd).length ≤
              contentEnd - (start + b.stop) := List.length_take_le _ _
          split
          · exact ih (hspans.concat (by omega) (by omega)) (Nat.le_refl _) (by simp only [ScanState.emit]; omega)
          · exact ih hspans (by omega) hcontent
    · exact ⟨hspans, hcontent⟩

theorem otherStep_sound (ho : Ordered model length) (h : s.Sound model length) (hline : model[s.i]? = some line)
    (hother : line.kind ≠ .beginMarker) : (otherStep text s line).Sound model length := by
  have hcursor : s.cursor ≤ line.lineStart := (h.ahead _ _ (Nat.le_refl _) hline).2 hother
  have hinside := ho.inside hline
  rw [otherStep]
  split
  · have hkeys := @inlineKeys_sound text line.contentEnd 8 _ _ h.spans hcursor (by omega)
    exact ⟨hkeys.1, hkeys.2.trans hinside.2.2, ho.ahead hline (Nat.lt_succ_self _) hkeys.2⟩
  · exact h.goTo (Nat.le_succ _)

theorem step_sound (ho : Ordered model length) (h : s.Sound model length) (hline : model[s.i]? = some line) :
    (step text model s line).Sound model length := by
  rw [step]
  split
  · exact beginStep_sound ho h hline
  · exact orphanStep_sound ho h hline
  · exact orphanStep_sound ho h hline
  · exact orphanStep_sound ho h hline
  · next hkind => exact endStep_sound ho h hline (by rw [hkind]; rfl)
  · next hkind => exact endStep_sound ho h hline (by rw [hkind]; rfl)
  · exact oneLineStep_sound ho h hline
  · next hkind => exact otherStep_sound ho h hline (by rw [hkind]; decide)
  · exact h.goTo (Nat.le_succ _)

/-! ## The whole scan -/

theorem scan_sound (ho : Ordered model length) (fuel : Nat) : ∀ {s : ScanState}, s.Sound model length →
    (scan text model fuel s).Sound model length := by
  induction fuel with
  | zero => exact fun h => h
  | succ fuel ih =>
    intro s h
    rw [scan]
    split
    · exact h
    · next line hline => exact ih (step_sound ho h hline)

end

theorem privateKeySpans_inOrder (text : List Char) : SpansInOrder 0 (privateKeySpans text) text.length := by
  rw [privateKeySpans]
  split
  · have hstart : ScanState.Sound (pemLineModel text) text.length ⟨0, 0, 0, []⟩ :=
      ⟨Nat.le_refl _, Nat.zero_le _, fun _ _ _ _ => ⟨Nat.zero_le _, fun _ => Nat.zero_le _⟩⟩
    have hend := @scan_sound text _ _ (pemLineModel_laid text).ordered (pemLineModel text).length _ hstart
    exact hend.spans.mono hend.le
  · exact Nat.zero_le _

/-- The redaction is an edit of disjoint spans from left to right: each span starts behind the one
before it, the rest of the text is kept, and a placeholder that keeps the spans keeps the text. -/
theorem redaction_edits_in_order (text : List Char) :
    SpansInOrder 0 (privateKeySpans text) text.length ∧
    (∃ (pieces : List (List Char × List Char)) (last : List Char),
      text = pieces.flatMap (fun piece => piece.1 ++ piece.2) ++ last ∧
      pieces.map Prod.snd = (privateKeySpans text).map (fun span => slice text span.1 span.2) ∧
      ∀ placeholder, redactPrivateKeyBlocksWith text placeholder =
        pieces.flatMap (fun piece => piece.1 ++ placeholder piece.2) ++ last) ∧
    redactPrivateKeyBlocksWith text id = text := by
  obtain ⟨pieces, last, hdrop, hslices, hreplace⟩ := replaceSpans_pieces (privateKeySpans_inOrder text)
  rw [List.drop_zero] at hdrop
  refine ⟨privateKeySpans_inOrder text, ⟨pieces, last, hdrop, hslices, hreplace⟩, ?_⟩
  rw [redactPrivateKeyBlocksWith, hreplace]
  exact hdrop.symm

end Pem
