import LcmX.Decompositions
import Mathlib

/-!
# The walk finds the splits

The splits from a place are listed by recursion on what is left of the row. The walk keeps the
splits that it has found in front of those that its stack still leads to, and as long as it
has fewer than the wanted number it has lost none.
-/
namespace Decomposition

section

variable (content : Text) (texts : List Text) (isPartial : Bool)

/-- Genuine splits: whole texts, at least two, or at least one and a remainder. -/
def IsSplit (split : Split) : Prop :=
  (∀ t ∈ split.1, t ∈ texts) ∧
    ((split.2 = [] ∧ 2 ≤ split.1.length ∧ content = blankLine.intercalate split.1) ∨
      (isPartial = true ∧ split.2 ≠ [] ∧ 1 ≤ split.1.length ∧
        content = blankLine.intercalate split.1 ++ (blankLine ++ split.2)))

/-! ## The splits from a place -/

def splitsFrom (pos : Nat) (parts : List Text) : List Split :=
  (candidates content texts pos).flatMap fun text =>
    if startsAt content text pos then
      if pos + text.length = content.length ∧ 1 ≤ parts.length then [(parts ++ [text], [])]
      else if _h : startsAt content blankLine (pos + text.length) ∧ pos + text.length + 2 < content.length then
        (if isPartial then [(parts ++ [text], content.drop (pos + text.length + 2))] else []) ++
          splitsFrom (pos + text.length + 2) (parts ++ [text])
      else []
    else []
termination_by content.length - pos

/-- The splits that go on with one text. -/
def splitsBy (pos : Nat) (parts : List Text) (text : Text) : List Split :=
  if startsAt content text pos then
    if pos + text.length = content.length ∧ 1 ≤ parts.length then [(parts ++ [text], [])]
    else if startsAt content blankLine (pos + text.length) ∧ pos + text.length + 2 < content.length then
      (if isPartial then [(parts ++ [text], content.drop (pos + text.length + 2))] else []) ++
        splitsFrom content texts isPartial (pos + text.length + 2) (parts ++ [text])
    else []
  else []

theorem splitsFrom_eq (pos : Nat) (parts : List Text) : splitsFrom content texts isPartial pos parts =
    (candidates content texts pos).flatMap (splitsBy content texts isPartial pos parts) := by
  rw [splitsFrom]
  rfl

/-- The splits that the stack still leads to. -/
def stackSplits (stack : List Frame) : List Split :=
  stack.flatMap fun frame => frame.pending.flatMap (splitsBy content texts isPartial frame.pos frame.parts)

/-! ## One pass -/

/-- Nothing is found that is not a split, and nothing is lost while fewer are known than are wanted. -/
structure Tracks (w : Walk) : Prop where
  sound : (w.out ++ stackSplits content texts isPartial w.stack).Sublist (splitsFrom content texts isPartial 0 [])
  complete : w.out.length < maxDecompositions →
    w.out ++ stackSplits content texts isPartial w.stack = splitsFrom content texts isPartial 0 []

variable {content texts isPartial}

/-- A new call adds its own split and leads to those behind it. -/
theorem enter_splits {pos : Nat} {parts : List Text} (hparts : parts ≠ []) (hpos : pos < content.length) {w w' : Walk}
    (h : enter content texts isPartial pos parts w = some w') :
    (maxDecompositions ≤ w.out.length ∧ w' = w) ∨
      (w'.out ++ stackSplits content texts isPartial w'.stack =
        w.out ++ ((if isPartial then [(parts, content.drop pos)] else []) ++
        splitsFrom content texts isPartial pos parts) ++
          stackSplits content texts isPartial w.stack ∧ w.out.length ≤ w'.out.length) := by
  rw [enter] at h
  split at h
  · rename_i hfull
    exact .inl ⟨hfull, (Option.some.inj h).symm⟩
  · split at h
    · cases h
    · obtain rfl := Option.some.inj h
      right
      simp only [stackSplits, List.flatMap_cons, splitsFrom_eq]
      cases isPartial <;> simp [hparts, hpos]

theorem tracks_of_eq {w w' : Walk} (h : Tracks content texts isPartial w) (hlen : w.out.length ≤ w'.out.length)
    (heq : w'.out ++ stackSplits content texts isPartial w'.stack = w.out ++
      stackSplits content texts isPartial w.stack) :
    Tracks content texts isPartial w' := by
  constructor
  · rw [heq]
    exact h.sound
  · intro hshort
    rw [heq]
    exact h.complete (by omega)

/-- The splits behind a text are dropped only when enough are known. -/
theorem tracks_of_drop {out : List Split} {stack : List Frame} (lost : List Split) (visited : Nat)
    (hfull : maxDecompositions ≤ out.length)
    (h : (out ++ (lost ++ stackSplits content texts isPartial stack)).Sublist
    (splitsFrom content texts isPartial 0 [])) :
    Tracks content texts isPartial ⟨out, stack, visited⟩ := by
  refine ⟨?_, fun hshort => absurd hfull (by simpa using hshort)⟩
  exact ((List.Sublist.refl out).append (List.sublist_append_right lost _)).trans h

/-- Trying one text keeps the walk on the splits. -/
theorem tryText_tracks {pos : Nat} {parts : List Text} {text : Text} {pending : List Text}
    {stack : List Frame} {out : List Split} {visited : Nat}
    {w' : Walk} (h : Tracks content texts isPartial ⟨out, ⟨pos, parts, text :: pending⟩ :: stack, visited⟩)
    (hstep : tryText content texts isPartial pos parts text ⟨out, ⟨pos, parts, pending⟩ :: stack, visited⟩ = some w') :
    Tracks content texts isPartial w' := by
  have hstack : stackSplits content texts isPartial (⟨pos, parts, text :: pending⟩ :: stack) =
      splitsBy content texts isPartial pos parts text ++ stackSplits content texts isPartial
        (⟨pos, parts, pending⟩ :: stack) := by
    simp [stackSplits]
  rw [tryText] at hstep
  split at hstep
  · rename_i hstarts
    obtain rfl := Option.some.inj hstep
    refine tracks_of_eq h (Nat.le_refl _) ?_
    rw [hstack, splitsBy, if_neg hstarts, List.nil_append]
  · rename_i hstarts
    have hstarts' := of_not_not hstarts
    split at hstep
    · rename_i hend
      obtain rfl := Option.some.inj hstep
      refine tracks_of_eq h (by simp) ?_
      rw [hstack, splitsBy, if_pos hstarts', if_pos hend]
      simp
    · rename_i hend
      split at hstep
      · rename_i hblank
        have hby : splitsBy content texts isPartial pos parts text =
            (if isPartial then [(parts ++ [text], content.drop (pos + text.length + 2))] else []) ++
              splitsFrom content texts isPartial (pos + text.length + 2) (parts ++ [text]) := by
          rw [splitsBy, if_pos hstarts', if_neg hend, if_pos hblank]
        rcases enter_splits (by simp) hblank.2 hstep with ⟨hfull, rfl⟩ | ⟨heq, hlen⟩
        · refine tracks_of_drop (splitsBy content texts isPartial pos parts text) visited hfull ?_
          rw [← hstack]
          exact h.sound
        · refine tracks_of_eq h hlen ?_
          rw [heq, hstack, hby]
          simp
      · rename_i hblank
        obtain rfl := Option.some.inj hstep
        refine tracks_of_eq h (Nat.le_refl _) ?_
        rw [hstack, splitsBy, if_pos hstarts', if_neg hend, if_neg hblank, List.nil_append]

/-! ## The loop -/

/-- The passes that are left: the visits, and what the stack holds. -/
def remaining (texts : List Text) (w : Walk) : Nat :=
  (decomposeBudget - w.visited) * (2 * texts.length + 1) + (w.stack.map fun frame => frame.pending.length + 1).sum

theorem length_candidates (pos : Nat) : (candidates content texts pos).length ≤ 2 * texts.length := by
  rw [candidates, List.length_append]
  have hlong := List.length_filter_le
    (fun text => decide (16 ≤ text.length ∧ text.take 16 = (content.drop pos).take 16)) texts
  have hshort := List.length_filter_le (fun text => decide (0 < text.length ∧ text.length < 16)) texts
  omega

theorem enter_remaining {pos : Nat} {parts : List Text} {w w' : Walk}
    (h : enter content texts isPartial pos parts w = some w') :
    remaining texts w' ≤ remaining texts w := by
  rw [enter] at h
  split at h
  · rw [Option.some.inj h]
  · split at h
    · cases h
    · rename_i hroom
      obtain rfl := Option.some.inj h
      have hvisits : decomposeBudget - w.visited = (decomposeBudget - (w.visited + 1)) + 1 := by omega
      have hlen := @length_candidates content texts pos
      simp only [remaining, List.map_cons, List.sum_cons, hvisits, Nat.add_mul, Nat.one_mul]
      omega

theorem tryText_remaining {pos : Nat} {parts : List Text} {text : Text} {w w' : Walk}
    (h : tryText content texts isPartial pos parts text w = some w') : remaining texts w' ≤ remaining texts w := by
  rw [tryText] at h
  split at h
  · rw [Option.some.inj h]
  · split at h
    · rw [← Option.some.inj h]
      exact Nat.le_refl _
    · split at h
      · exact enter_remaining h
      · rw [Option.some.inj h]

/-- The loop ends, and a list that it returns is all the splits or the wanted number of them. -/
theorem loop_spec (fuel : Nat) : ∀ w : Walk, remaining texts w < fuel → Tracks content texts isPartial w →
    loop content texts isPartial fuel w = some none ∨
      ∃ out, loop content texts isPartial fuel w = some (some out) ∧
      out.Sublist (splitsFrom content texts isPartial 0 []) ∧
        (out.length < maxDecompositions → out = splitsFrom content texts isPartial 0 []) := by
  induction fuel with
  | zero =>
    intro w hfuel
    omega
  | succ fuel ih =>
    rintro ⟨out, stack, visited⟩ hfuel h
    rw [loop]
    match stack with
    | [] =>
      have hsound := h.sound
      have hcomplete := h.complete
      simp only [stackSplits, List.flatMap_nil, List.append_nil] at hsound hcomplete
      exact .inr ⟨out, rfl, hsound, hcomplete⟩
    | ⟨pos, parts, []⟩ :: stack =>
      refine ih ⟨out, stack, visited⟩ ?_ (tracks_of_eq h (Nat.le_refl _) ?_)
      · simp only [remaining, List.map_cons, List.sum_cons] at hfuel ⊢
        omega
      · simp [stackSplits]
    | ⟨pos, parts, text :: pending⟩ :: stack =>
      simp only
      cases hstep : tryText content texts isPartial pos parts text ⟨out, ⟨pos, parts, pending⟩ :: stack, visited⟩ with
      | none => exact .inl rfl
      | some w' =>
        refine ih w' ?_ (tryText_tracks h hstep)
        refine Nat.lt_of_le_of_lt (tryText_remaining hstep) ?_
        simp only [remaining, List.map_cons, List.sum_cons, List.length_cons] at hfuel ⊢
        omega

/-- The search gives up, or finds splits: every one where they are fewer than its limit. -/
theorem decompositions_spec (content : Text) (texts : List Text) (isPartial : Bool) :
    decompositions content texts isPartial = some none ∨
      ∃ out, decompositions content texts isPartial = some (some out) ∧
      out.Sublist (splitsFrom content texts isPartial 0 []) ∧
        (out.length < maxDecompositions → out = splitsFrom content texts isPartial 0 []) := by
  have hfirst : enter content texts isPartial 0 [] ⟨[], [], 0⟩ =
      some ⟨[], [⟨0, [], candidates content texts 0⟩], 1⟩ := by
    rw [enter, if_neg (by decide), if_neg (by decide)]
    simp
  rw [decompositions, hfirst]
  have hstack : [] ++ stackSplits content texts isPartial [⟨0, [], candidates content texts 0⟩] =
      splitsFrom content texts isPartial 0 [] := by
    simp [stackSplits, splitsFrom_eq]
  refine loop_spec _ _ ?_ ⟨?_, fun _ => hstack⟩
  · have hlen := @length_candidates content texts 0
    simp only [remaining, passes, List.map_cons, List.map_nil, List.sum_cons, List.sum_nil, decomposeBudget]
    omega
  · rw [hstack]

/-! ## What the splits from a place are -/

theorem mem_candidates {text : Text} {pos : Nat} (hstarts : startsAt content text pos = true) :
    text ∈ candidates content texts pos ↔ text ∈ texts ∧ text ≠ [] := by
  have hfront := List.prefix_iff_eq_take.mp (List.isPrefixOf_iff_prefix.mp hstarts)
  rw [candidates, List.mem_append, List.mem_filter, List.mem_filter, decide_eq_true_iff, decide_eq_true_iff]
  constructor
  · rintro (⟨hmem, hlong, -⟩ | ⟨hmem, hpos, -⟩)
    · refine ⟨hmem, ?_⟩
      rintro rfl
      simp at hlong
    · exact ⟨hmem, List.length_pos_iff.mp hpos⟩
  · rintro ⟨hmem, hne⟩
    by_cases hlong : 16 ≤ text.length
    · refine .inl ⟨hmem, hlong, ?_⟩
      calc text.take 16 = ((content.drop pos).take text.length).take 16 := by rw [← hfront]
        _ = (content.drop pos).take 16 := by rw [List.take_take, Nat.min_eq_left hlong]
    · exact .inr ⟨hmem, List.length_pos_iff.mpr hne, by omega⟩

/-- The texts that a split adds, and how they fill the rest of the row. -/
structure Continues (content : Text) (texts : List Text) (isPartial : Bool) (pos : Nat)
    (parts : List Text) (split : Split) (added : List Text) : Prop where
  parts : split.1 = parts ++ added
  nonempty : added ≠ []
  texts : ∀ t ∈ added, t ∈ texts ∧ t ≠ []
  fills : (split.2 = [] ∧ 2 ≤ split.1.length ∧ content.drop pos = blankLine.intercalate added) ∨
    (isPartial = true ∧ split.2 ≠ [] ∧ content.drop pos = blankLine.intercalate added ++ (blankLine ++ split.2))

/-- Where a text stands at a place, the row goes on behind it. -/
theorem drop_text {text : Text} {pos : Nat} (h : startsAt content text pos = true) :
    content.drop pos = text ++ content.drop (pos + text.length) := by
  obtain ⟨rest, hrest⟩ := List.isPrefixOf_iff_prefix.mp h
  rw [← List.drop_drop, ← hrest, List.drop_left]

theorem startsAt_of_drop {text rest : Text} {pos : Nat} (h : content.drop pos = text ++ rest) :
    startsAt content text pos = true :=
  List.isPrefixOf_iff_prefix.mpr ⟨rest, h.symm⟩

theorem drop_blank {pos : Nat} (h : startsAt content blankLine pos = true) :
    content.drop pos = blankLine ++ content.drop (pos + 2) := drop_text h

theorem drop_behind {text rest : Text} {pos : Nat} (h : content.drop pos = text ++ rest) :
    content.drop (pos + text.length) = rest := by
  rw [← List.drop_drop, h, List.drop_left]

theorem intercalate_ne_nil {added : List Text} (hadded : added ≠ []) (hne : ∀ t ∈ added, t ≠ []) :
    blankLine.intercalate added ≠ [] := by
  match added, hadded with
  | [t], _ => simpa using hne t (by simp)
  | t :: u :: rest, _ => simp [List.intercalate_cons_cons, hne t (by simp)]

theorem blank_room {pos : Nat} {rest : Text} (h : content.drop pos = blankLine ++ rest) (hrest : rest ≠ []) :
    startsAt content blankLine pos = true ∧ pos + 2 < content.length := by
  refine ⟨startsAt_of_drop h, ?_⟩
  have hlen := congrArg List.length h
  have hpos := List.length_pos_iff.mpr hrest
  rw [List.length_drop, List.length_append, show blankLine.length = 2 from rfl] at hlen
  omega

/-- Behind a text that the row goes on from, the next place. -/
theorem splitsBy_next {pos : Nat} {parts : List Text} {text rest : Text}
    (h : content.drop pos = text ++ (blankLine ++ rest)) (hrest : rest ≠ []) :
    splitsBy content texts isPartial pos parts text =
        (if isPartial then [(parts ++ [text], rest)] else []) ++ splitsFrom content texts isPartial
        (pos + text.length + 2) (parts ++ [text]) ∧
      content.drop (pos + text.length + 2) = rest := by
  have hbehind := drop_behind h
  obtain ⟨hblank, hroom⟩ := blank_room hbehind hrest
  have hnext : content.drop (pos + text.length + 2) = rest := drop_behind hbehind
  have hend : ¬ (pos + text.length = content.length ∧ 1 ≤ parts.length) := by omega
  rw [splitsBy, if_pos (startsAt_of_drop h), if_neg hend, if_pos ⟨hblank, hroom⟩, hnext]
  exact ⟨rfl, rfl⟩

/-- The splits from a position are those that continue the parts read so far. -/
theorem mem_splitsFrom (split : Split) (left : Nat) : ∀ (pos : Nat) (parts : List Text), content.length - pos = left →
    (split ∈ splitsFrom content texts isPartial pos parts ↔
      ∃ added, Continues content texts isPartial pos parts split added) := by
  induction left using Nat.strong_induction_on with
  | _ left ih =>
    intro pos parts hleft
    rw [splitsFrom_eq, List.mem_flatMap]
    constructor
    · rintro ⟨text, htext, hsplit⟩
      rw [splitsBy] at hsplit
      split at hsplit
      · rename_i hstarts
        obtain ⟨hmem, hne⟩ := (mem_candidates hstarts).mp htext
        have hdrop := drop_text hstarts
        split at hsplit
        · rename_i hend
          obtain rfl := List.mem_singleton.mp hsplit
          rw [hend.1, List.drop_length, List.append_nil] at hdrop
          exact ⟨[text], rfl, by simp, by simp [hmem, hne], .inl ⟨rfl, by simpa using hend.2, by simpa using hdrop⟩⟩
        · split at hsplit
          · rename_i hblank
            rw [drop_blank hblank.1] at hdrop
            have hrest : content.drop (pos + text.length + 2) ≠ [] :=
              List.length_pos_iff.mp (by rw [List.length_drop]; omega)
            rcases List.mem_append.mp hsplit with hsplit | hsplit
            · cases isPartial with
              | false => cases hsplit
              | true =>
                obtain rfl := List.mem_singleton.mp hsplit
                exact ⟨[text], rfl, by simp, by simp [hmem, hne], .inr ⟨rfl, hrest, by simpa using hdrop⟩⟩
            · obtain ⟨added, hadded⟩ := (ih _ (by omega) _ _ rfl).mp hsplit
              refine ⟨text :: added, by simp [hadded.parts], by simp, fun t ht => ?_, ?_⟩
              · rcases List.mem_cons.mp ht with rfl | ht
                · exact ⟨hmem, hne⟩
                · exact hadded.texts t ht
              · rw [hdrop, List.intercalate_cons_of_ne_nil hadded.nonempty]
                rcases hadded.fills with ⟨hr, hlen, hfills⟩ | ⟨hp, hr, hfills⟩
                · exact .inl ⟨hr, hlen, by rw [hfills, List.append_assoc]⟩
                · exact .inr ⟨hp, hr, by rw [hfills]; simp⟩
          · cases hsplit
      · cases hsplit
    · rintro ⟨added, hadded⟩
      obtain ⟨text, more, rfl⟩ := List.exists_cons_of_ne_nil hadded.nonempty
      obtain ⟨hmem, hne⟩ := hadded.texts text (by simp)
      have hmore : ∀ t ∈ more, t ∈ texts ∧ t ≠ [] := fun t ht => hadded.texts t (by simp [ht])
      have hcandidate : ∀ rest, content.drop pos = text ++ rest → text ∈ candidates content texts pos :=
        fun rest h => (mem_candidates (startsAt_of_drop h)).mpr ⟨hmem, hne⟩
      by_cases hlast : more = []
      · subst hlast
        obtain ⟨parts', rest⟩ := split
        obtain rfl : parts' = parts ++ [text] := hadded.parts
        rcases hadded.fills with ⟨hr, hlen, hfills⟩ | ⟨hp, hr, hfills⟩
        · obtain rfl : rest = [] := hr
          have hdrop : content.drop pos = text ++ [] := by simpa using hfills
          have hend : pos + text.length = content.length := by
            have hlength := congrArg List.length hdrop
            have hpos := List.length_pos_iff.mpr hne
            rw [List.length_drop, List.append_nil] at hlength
            omega
          refine ⟨text, hcandidate [] hdrop, ?_⟩
          rw [splitsBy, if_pos (startsAt_of_drop hdrop), if_pos ⟨hend, by simpa using hlen⟩]
          exact List.mem_singleton_self _
        · have hdrop : content.drop pos = text ++ (blankLine ++ rest) := by simpa using hfills
          refine ⟨text, hcandidate _ hdrop, ?_⟩
          rw [(splitsBy_next hdrop hr).1, if_pos hp]
          simp
      · -- the rest of the added texts continues the split behind the blank line
        have hinner : blankLine.intercalate more ≠ [] := intercalate_ne_nil hlast fun t ht => (hmore t ht).2
        have hparts : split.1 = parts ++ [text] ++ more := by simpa using hadded.parts
        have hnext : ∃ rest, content.drop pos = text ++ (blankLine ++ rest) ∧ rest ≠ [] ∧
            (content.drop (pos + text.length + 2) = rest → Continues content texts isPartial
              (pos + text.length + 2) (parts ++ [text]) split more) := by
          rcases hadded.fills with ⟨hr, hlen, hfills⟩ | ⟨hp, hr, hfills⟩
          · rw [List.intercalate_cons_of_ne_nil hlast, List.append_assoc] at hfills
            exact ⟨_, hfills, hinner, fun hrest => ⟨hparts, hlast, hmore, .inl ⟨hr, hlen, hrest⟩⟩⟩
          · rw [List.intercalate_cons_of_ne_nil hlast, List.append_assoc, List.append_assoc] at hfills
            exact ⟨_, hfills, by simp [hinner], fun hrest => ⟨hparts, hlast, hmore, .inr ⟨hp, hr, hrest⟩⟩⟩
        obtain ⟨rest, hdrop, hrest, hcontinues⟩ := hnext
        obtain ⟨hby, hbehind⟩ := @splitsBy_next content texts isPartial pos parts text rest hdrop hrest
        obtain ⟨-, hroom⟩ := blank_room (drop_behind hdrop) hrest
        refine ⟨text, hcandidate _ hdrop, ?_⟩
        rw [hby, List.mem_append]
        exact .inr ((ih _ (by omega) _ _ rfl).mpr ⟨more, hcontinues hbehind⟩)

theorem isSplit_iff (split : Split) : (∃ added, Continues content texts isPartial 0 [] split added) ↔
    IsSplit content texts isPartial split ∧ ∀ t ∈ split.1, t ≠ [] := by
  constructor
  · rintro ⟨added, hparts, hne, htexts, hfills⟩
    obtain rfl : split.1 = added := hparts
    refine ⟨⟨fun t ht => (htexts t ht).1, ?_⟩, fun t ht => (htexts t ht).2⟩
    rcases hfills with ⟨hr, hlen, hfills⟩ | ⟨hp, hr, hfills⟩
    · exact .inl ⟨hr, hlen, hfills⟩
    · exact .inr ⟨hp, hr, List.length_pos_iff.mpr hne, hfills⟩
  · rintro ⟨⟨hmem, hfills⟩, hne⟩
    refine ⟨split.1, rfl, ?_, fun t ht => ⟨hmem t ht, hne t ht⟩, ?_⟩
    · rcases hfills with ⟨-, hlen, -⟩ | ⟨-, -, hlen, -⟩
      · exact List.length_pos_iff.mp (by omega)
      · exact List.length_pos_iff.mp hlen
    · rcases hfills with ⟨hr, hlen, hfills⟩ | ⟨hp, hr, -, hfills⟩
      · exact .inl ⟨hr, hlen, hfills⟩
      · exact .inr ⟨hp, hr, hfills⟩

/-! ## No split is listed twice -/

theorem candidates_nodup (htexts : texts.Nodup) (pos : Nat) : (candidates content texts pos).Nodup := by
  rw [candidates, List.nodup_append]
  refine ⟨htexts.filter _, htexts.filter _, fun a ha b hb he => ?_⟩
  have hlong := of_decide_eq_true (List.mem_filter.mp ha).2
  have hshort := of_decide_eq_true (List.mem_filter.mp hb).2
  rw [he] at hlong
  omega

/-- The splits by a text add that text first. -/
theorem splitsBy_parts {pos : Nat} {parts : List Text} {text : Text} {split : Split}
    (h : split ∈ splitsBy content texts isPartial pos parts text) :
    ∃ more, split.1 = parts ++ text :: more := by
  rw [splitsBy] at h
  split at h
  · split at h
    · obtain rfl := List.mem_singleton.mp h
      exact ⟨[], rfl⟩
    · split at h
      · rcases List.mem_append.mp h with h | h
        · cases isPartial with
          | false => cases h
          | true =>
            obtain rfl := List.mem_singleton.mp h
            exact ⟨[], rfl⟩
        · obtain ⟨added, hadded⟩ := (mem_splitsFrom split _ _ _ rfl).mp h
          exact ⟨added, by simp [hadded.parts]⟩
      · cases h
  · cases h

/-- No split is listed twice. -/
theorem splitsFrom_nodup (htexts : texts.Nodup) (left : Nat) : ∀ (pos : Nat) (parts : List Text),
    content.length - pos = left →
    (splitsFrom content texts isPartial pos parts).Nodup := by
  induction left using Nat.strong_induction_on with
  | _ left ih =>
    intro pos parts hleft
    rw [splitsFrom_eq, List.nodup_flatMap]
    constructor
    · intro text _
      rw [splitsBy]
      split
      · split
        · exact List.nodup_singleton _
        · split
          · rename_i hblank
            refine List.nodup_append.mpr ⟨?_, ih _ (by omega) _ _ rfl, fun a ha b hb he => ?_⟩
            · split
              · exact List.nodup_singleton _
              · exact List.nodup_nil
            · -- the splits behind the blank line have another part
              obtain ⟨added, hadded⟩ := (mem_splitsFrom b _ _ _ rfl).mp hb
              have ha' : a.1 = parts ++ [text] := by
                split at ha
                · exact congrArg Prod.fst (List.mem_singleton.mp ha)
                · cases ha
              have hsame : parts ++ [text] = parts ++ [text] ++ added :=
                ha'.symm.trans ((congrArg Prod.fst he).trans hadded.parts)
              exact hadded.nonempty (by simpa using hsame)
          · exact List.nodup_nil
      · exact List.nodup_nil
    · refine (candidates_nodup htexts pos).imp fun {a b} hne split ha hb => ?_
      obtain ⟨more, hmore⟩ := splitsBy_parts ha
      obtain ⟨more', hmore'⟩ := splitsBy_parts hb
      have hsame := List.append_cancel_left (hmore.symm.trans hmore')
      exact hne (List.cons.inj hsame).1

/-! ## The result -/

/-- A genuine split into texts that are not empty. -/
def IsWhole (content : Text) (texts : List Text) (isPartial : Bool) (split : Split) : Prop :=
  IsSplit content texts isPartial split ∧ ∀ t ∈ split.1, t ≠ []

/-- The walk gives up or returns genuine splits, none twice, and all of them when they are fewer than the wanted number:
one split in the answer is the only one, and three are three. -/
theorem decompositions_genuine (content : Text) (texts : List Text) (isPartial : Bool) (htexts : texts.Nodup) :
    decompositions content texts isPartial = some none ∨
      ∃ out, decompositions content texts isPartial = some (some out) ∧ out.Nodup ∧
      (∀ split ∈ out, IsWhole content texts isPartial split) ∧
        (out.length < maxDecompositions → ∀ split, IsWhole content texts isPartial split → split ∈ out) ∧
        (∀ only, out = [only] → ∀ split, IsWhole content texts isPartial split ↔ split = only) ∧
        (3 ≤ out.length → ∃ found : List Split, found.length = 3 ∧ found.Nodup ∧ ∀ split ∈ found,
        IsWhole content texts isPartial split) := by
  rcases decompositions_spec content texts isPartial with hnone | ⟨out, hreturns, hsub, hall⟩
  · exact .inl hnone
  · have hnodup := hsub.nodup (splitsFrom_nodup htexts _ _ _ rfl)
    have hsound : ∀ split ∈ out, IsWhole content texts isPartial split :=
      fun split hsplit => (isSplit_iff split).mp ((mem_splitsFrom split _ _ _ rfl).mp (hsub.subset hsplit))
    have hcomplete : out.length < maxDecompositions → ∀ split, IsWhole content texts isPartial split → split ∈ out := by
      intro hshort split hwhole
      rw [hall hshort]
      exact (mem_splitsFrom split _ _ _ rfl).mpr ((isSplit_iff split).mpr hwhole)
    refine .inr ⟨out, hreturns, hnodup, hsound, hcomplete, ?_, fun hlong => ?_⟩
    · rintro only rfl split
      exact ⟨fun hwhole => List.mem_singleton.mp
        (hcomplete (by simp [maxDecompositions]) split hwhole), fun he => hsound split (by simp [he])⟩
    · exact ⟨out.take 3, by simp [hlong], hnodup.sublist (List.take_sublist 3 out),
        fun split hsplit => hsound split (List.mem_of_mem_take hsplit)⟩

def pairTexts : List Text := ["a".toList, "b".toList]

theorem decompositions_genuine_pair : decompositions "a\n\nb".toList pairTexts false = some none ∨
    ∃ out, decompositions "a\n\nb".toList pairTexts false = some (some out) ∧ out.Nodup ∧
    (∀ split ∈ out, IsWhole "a\n\nb".toList pairTexts false split) ∧
      (out.length < maxDecompositions → ∀ split, IsWhole "a\n\nb".toList pairTexts false split → split ∈ out) ∧
      (∀ only, out = [only] → ∀ split, IsWhole "a\n\nb".toList pairTexts false split ↔ split = only) ∧
      (3 ≤ out.length → ∃ found : List Split, found.length = 3 ∧ found.Nodup ∧ ∀ split ∈ found,
      IsWhole "a\n\nb".toList pairTexts false split) :=
  decompositions_genuine "a\n\nb".toList pairTexts false (by decide)

example : decompositions "a\n\nb".toList pairTexts false = some (some [(pairTexts, [])]) := by decide +kernel

/-- An empty text is never tried, so a split with one is not found. -/
theorem decompositions_emptyText : decompositions "a\n\n".toList ["a".toList, []] false = some (some []) ∧
    IsSplit "a\n\n".toList ["a".toList, []] false (["a".toList, []], []) := by
  refine ⟨by decide +kernel, by simp, .inl ⟨rfl, Nat.le_refl 2, by decide⟩⟩

end

end Decomposition
