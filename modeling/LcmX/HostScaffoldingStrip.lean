import LcmX.HostScaffoldingSpan

/-!
# Contents without scaffolding

A rendered task list leaves no trace in the stripped content. Stripping cuts one
list and drops one note, so a content with more of them is not settled at once.
-/
namespace Reconcile

open Regex PyText

theorem todo_oneLine : '\n' ∉ preservedTodoContextPrefix := by decide +kernel

theorem note_oneLine : '\n' ∉ modelSwitchNotificationPrefix := by decide +kernel

theorem todo_ne_nil : preservedTodoContextPrefix ≠ [] := by decide +kernel

theorem note_ne_nil : modelSwitchNotificationPrefix ≠ [] := by decide +kernel

/-! ## A note in front -/

/-- A note that can be dropped. -/
def startsWithNote (content : List Char) : Bool := modelSwitchNotificationPrefix.isPrefixOf content ∧ ']' ∈ content

theorem dropModelSwitch_of_not {content : List Char} (h : startsWithNote content = false) :
    dropModelSwitch content = content := by
  rw [dropModelSwitch, if_neg (by simpa [startsWithNote] using h)]

/-- The note and the line breaks behind it are in front of what is left. -/
theorem dropModelSwitch_eq {content : List Char} (h : startsWithNote content = true) :
    ∃ note, modelSwitchNotificationPrefix <+: note ∧ content = note ++ dropModelSwitch content := by
  rw [startsWithNote, decide_eq_true_eq] at h
  obtain ⟨hstarts, hclosed⟩ := h
  rw [List.isPrefixOf_iff_prefix] at hstarts
  rw [dropModelSwitch, if_pos ⟨List.isPrefixOf_iff_prefix.mpr hstarts, hclosed⟩]
  have hsplit := List.takeWhile_append_dropWhile (p := (· ≠ ']')) (l := content)
  generalize content.takeWhile (· ≠ ']') = front at hsplit
  generalize hback : content.dropWhile (· ≠ ']') = back at hsplit ⊢
  cases back with
  | nil =>
    rw [List.dropWhile_eq_nil_iff] at hback
    exact absurd (hback ']' hclosed) (by simp)
  | cons c back =>
    have hbreaks := List.takeWhile_append_dropWhile (p := (· = '\n')) (l := back)
    refine ⟨front ++ c :: back.takeWhile (· = '\n'), ?_, ?_⟩
    · obtain rfl : c = ']' := by
        have hhead := List.head?_dropWhile_not (· ≠ ']') content
        rw [hback] at hhead
        simpa using hhead
      have hbracket : ']' ∉ modelSwitchNotificationPrefix := by decide +kernel
      rw [← hsplit] at hstarts
      exact (prefix_of_append_cons hbracket hstarts).trans (List.prefix_append _ _)
    · rw [List.drop_succ_cons, List.drop_zero, List.append_assoc, List.cons_append, hbreaks, hsplit]

theorem dropModelSwitch_suffix (content : List Char) : dropModelSwitch content <:+ content := by
  cases h : startsWithNote content with
  | false => rw [dropModelSwitch_of_not h]
  | true =>
    obtain ⟨note, -, heq⟩ := dropModelSwitch_eq h
    exact ⟨note, heq.symm⟩

theorem dropModelSwitch_lt {content : List Char} (h : startsWithNote content = true) :
    (dropModelSwitch content).length < content.length := by
  obtain ⟨note, hnote, heq⟩ := dropModelSwitch_eq h
  have hpos := List.length_pos_iff.mpr note_ne_nil
  have hle := hnote.length_le
  have hlength := congrArg List.length heq
  rw [List.length_append] at hlength
  omega

/-- Of a single note nothing is left. -/
theorem not_startsWithNote_drop {content : List Char} (h : occurrences modelSwitchNotificationPrefix content ≤ 1) :
    startsWithNote (dropModelSwitch content) = false := by
  cases hstart : startsWithNote content with
  | false => rwa [dropModelSwitch_of_not hstart]
  | true =>
    obtain ⟨note, hnote, heq⟩ := dropModelSwitch_eq hstart
    by_contra hagain
    rw [Bool.not_eq_false, startsWithNote, decide_eq_true_eq, List.isPrefixOf_iff_prefix] at hagain
    have hcount := occurrences_append_le modelSwitchNotificationPrefix note (dropModelSwitch content)
    rw [← heq] at hcount
    have hone := one_le_occurrences note_ne_nil hnote.isInfix
    have htwo := one_le_occurrences note_ne_nil hagain.1.isInfix
    omega

theorem dropDelimiter_break (v : List Char) : dropDelimiter ('\n' :: '\n' :: v) = v := by
  rw [dropDelimiter, if_pos (by simp)]
  rfl

theorem dropDelimiter_suffix (tail : List Char) : dropDelimiter tail <:+ tail := by
  rw [dropDelimiter]
  split
  · exact List.drop_suffix 2 tail
  · exact List.suffix_rfl

/-! ## The first task list -/

theorem le_todoSpanFrom (lines : List (List Char)) : ∀ notice openItem spanEnd,
    spanEnd ≤ todoSpanFrom notice openItem spanEnd lines := by
  induction lines with
  | nil => exact fun _ _ _ => Nat.le_refl _
  | cons line lines ih =>
    intro notice openItem spanEnd
    have hnext := fun notice openItem => ih notice openItem (spanEnd + (1 + line.length))
    rw [todoSpanFrom]
    split
    · split
      · exact Nat.le_refl _
      · exact (Nat.le_add_right _ _).trans (hnext _ _)
    · split <;> exact (Nat.le_add_right _ _).trans (hnext _ _)

theorem splitOn_append_front {c : Char} {a : List Char} (ha : c ∉ a) (b : List Char) :
    (a ++ b).splitOn c = (b.splitOn c).modifyHead (a ++ ·) := by
  induction a with
  | nil =>
    rw [List.nil_append]
    cases b.splitOn c <;> rfl
  | cons d a ih =>
    rw [List.mem_cons, not_or] at ha
    rw [List.cons_append, List.splitOn_cons_eq_if_modifyHead, if_neg (by simpa using Ne.symm ha.1), ih ha.2]
    cases b.splitOn c <;> rfl

/-- The header is in the span. -/
theorem le_todoAnnotationSpan {content : List Char} {start : Nat}
    (h : preservedTodoContextPrefix <+: content.drop start) :
    start + preservedTodoContextPrefix.length ≤ todoAnnotationSpan content start := by
  obtain ⟨rest, hrest⟩ := h
  rw [todoAnnotationSpan, ← hrest, splitOn_append_front todo_oneLine]
  cases hlines : rest.splitOn '\n' with
  | nil => exact absurd hlines (List.splitOn_ne_nil '\n' rest)
  | cons line lines =>
    rw [List.modifyHead_cons]
    dsimp only
    have hheader : start + preservedTodoContextPrefix.length ≤
        start + (preservedTodoContextPrefix ++ line).length := by simp
    split
    · exact hheader
    · split
      · exact hheader.trans (le_todoSpanFrom _ _ _ _)
      · exact hheader

/-- What a cut does: a header that does not start the content goes with its span. -/
inductive Cut (content : List Char) : List Char → Prop where
  | whole (h : ∀ n, find preservedTodoContextPrefix content = some n → n = 0) : Cut content content
  | list (front gone rest : List Char) (hfront : front ≠ [])
      (hcontent : content = front ++ (preservedTodoContextPrefix ++ gone ++ rest)) :
      Cut content (front.rdropWhile isSpace ++
        if isBlankLine (dropModelSwitch (dropDelimiter rest)) then []
        else '\n' :: '\n' :: dropModelSwitch (dropDelimiter rest))

theorem cutTodo_cut (content : List Char) : Cut content (cutTodo content) := by
  rw [cutTodo]
  split
  · next hnone => exact .whole fun n hn => by rw [hnone] at hn; cases hn
  · next hzero => exact .whole fun n hn => by rw [hzero] at hn; exact (Option.some.inj hn).symm
  · next start hpos hfind =>
    dsimp only
    obtain ⟨hstarts, hle⟩ := prefix_of_find hfind
    have hspan := le_todoAnnotationSpan hstarts
    obtain ⟨more, hmore⟩ := hstarts
    obtain ⟨extra, hextra⟩ := Nat.exists_eq_add_of_le hspan
    have htail : content.drop (todoAnnotationSpan content start) = more.drop extra := by
      rw [hextra, ← List.drop_drop, ← List.drop_drop, ← hmore, List.drop_left]
    have hsplit : content = content.take start ++
        (preservedTodoContextPrefix ++ more.take extra ++ more.drop extra) := by
      rw [List.append_assoc, List.take_append_drop, hmore, List.take_append_drop]
    have hfront : content.take start ≠ [] := by
      rw [ne_eq, List.take_eq_nil_iff, not_or]
      refine ⟨hpos, fun h => hpos ?_⟩
      rw [h] at hle
      exact Nat.le_zero.mp hle
    rw [htail]
    exact .list _ _ _ hfront hsplit

/-! ## What is kept of a content with a task list -/

theorem find_joined {a b : List Char} (ha : ¬ preservedTodoContextPrefix <:+: a)
    (hb : ¬ preservedTodoContextPrefix <:+: b) :
    find preservedTodoContextPrefix (a ++ if isBlankLine b then [] else '\n' :: '\n' :: b) = none := by
  have hzero : ∀ {text : List Char}, ¬ preservedTodoContextPrefix <:+: text →
      occurrences preservedTodoContextPrefix text = 0 :=
    fun h => (occurrences_eq_zero todo_ne_nil).mpr (find_eq_none.mpr h)
  rw [← occurrences_eq_zero todo_ne_nil]
  split
  · rw [List.append_nil, hzero ha]
  · have hbreak := occurrences_append_cons todo_oneLine todo_ne_nil [] b
    rw [occurrences_append_cons todo_oneLine todo_ne_nil, hzero ha, Nat.zero_add]
    rw [List.nil_append, hzero hb] at hbreak
    exact hbreak

theorem cutTodo_of_none {content : List Char} (h : find preservedTodoContextPrefix content = none) :
    cutTodo content = content := by
  rw [cutTodo, h]

theorem cut_snapshot (t : TodoSnapshot) {u v : List Char} (hne : u ≠ []) (hu : ¬ preservedTodoContextPrefix <:+: u)
    (hnotice : ¬ prunedSkillReloadNoticeHeader <+: v) (hnote : ¬ modelSwitchNotificationPrefix <+: v) :
    cutTodo (u ++ (t.text ++ '\n' :: '\n' :: v)) =
      u.rdropWhile isSpace ++ if isBlankLine v then [] else '\n' :: '\n' :: v := by
  have htext : preservedTodoContextPrefix <+: t.text ++ '\n' :: '\n' :: v := by
    have hlines : t.header <+: t.text := by
      rw [TodoSnapshot.text, TodoSnapshot.lines]
      cases t.itemLines ++ t.noticeLines with
      | nil => simp
      | cons line lines =>
        rw [List.intercalate_cons_cons, List.append_assoc]
        exact List.prefix_append _ _
    exact t.isHeader.trans (hlines.trans (List.prefix_append _ _))
  have hfind : find preservedTodoContextPrefix (u ++ (t.text ++ '\n' :: '\n' :: v)) = some u.length :=
    find_append_of_prefix (c := '[') (by decide +kernel) hu htext
  have hkeep : startsWithNote v = false := by
    rw [startsWithNote, decide_eq_false_iff_not, List.isPrefixOf_iff_prefix]
    exact fun h => hnote h.1
  rw [cutTodo, hfind]
  split
  · next hnone => cases hnone
  · next hzero => exact absurd (Option.some.inj hzero) (List.length_eq_zero_iff.not.mpr hne)
  · next start _ hstart =>
    obtain rfl := Option.some.inj hstart
    dsimp only
    rw [t.span hnotice, List.take_left, ← List.drop_drop, List.drop_left, List.drop_left,
      dropDelimiter_break, dropModelSwitch_of_not hkeep]

/-- The task list that the host wrote between two texts leaves no trace, and the text behind it is kept whole. -/
theorem strip_snapshot (t : TodoSnapshot) {u v : List Char} (hne : u ≠ []) (hu : ¬ preservedTodoContextPrefix <:+: u)
    (hv : ¬ preservedTodoContextPrefix <:+: v) (hnotice : ¬ prunedSkillReloadNoticeHeader <+: v)
    (hnote : ¬ modelSwitchNotificationPrefix <+: v) :
    stripVolatileHostScaffolding (u ++ (t.text ++ '\n' :: '\n' :: v)) =
        stripVolatileHostScaffolding (u.rdropWhile isSpace ++ if isBlankLine v then [] else '\n' :: '\n' :: v) ∧
      (isBlankLine v = false → v <:+ cutTodo (u ++ (t.text ++ '\n' :: '\n' :: v))) := by
  have hfront : ¬ preservedTodoContextPrefix <:+: u.rdropWhile isSpace :=
    fun h => hu (h.trans (List.rdropWhile_prefix isSpace u).isInfix)
  constructor
  · rw [stripVolatileHostScaffolding, stripVolatileHostScaffolding, cut_snapshot t hne hu hnotice hnote,
      cutTodo_of_none (find_joined hfront hv)]
  · intro hblank
    rw [cut_snapshot t hne hu hnotice hnote, hblank, if_neg (by simp)]
    exact (List.suffix_append ['\n', '\n'] v).trans (List.suffix_append _ _)

/-- A list whose item has an empty line in its text, with a notice. -/
def errandSnapshot : TodoSnapshot where
  header := preservedTodoContextPrefix
  first :=
    { opening := ["- [>] 1. buy tea".toList, []]
      last := "and milk (in_progress)".toList
      isItem := by decide +kernel
      opens := by decide +kernel
      closes := by decide +kernel
      oneLine := by decide +kernel }
  items := []
  notice := some
    { header := prunedSkillReloadNoticeHeader
      rest := ["- shop".toList]
      isNotice := by decide +kernel
      notBlank := by decide +kernel
      oneLine := by decide +kernel }
  isHeader := by decide +kernel
  oneLine := by decide +kernel

theorem strip_snapshot_errand :
    stripVolatileHostScaffolding ("hello ".toList ++ (errandSnapshot.text ++ '\n' :: '\n' :: "also bread".toList)) =
        stripVolatileHostScaffolding ("hello ".toList.rdropWhile isSpace ++
          if isBlankLine "also bread".toList then [] else '\n' :: '\n' :: "also bread".toList) ∧
      (isBlankLine "also bread".toList = false →
        "also bread".toList <:+ cutTodo
        ("hello ".toList ++ (errandSnapshot.text ++ '\n' :: '\n' :: "also bread".toList))) :=
  strip_snapshot errandSnapshot (by decide +kernel) (by decide +kernel) (by decide +kernel)
    (by decide +kernel) (by decide +kernel)

/-! ## Stripping again -/

theorem Cut.whole_or_lt {content kept : List Char} (h : Cut content kept) :
    (kept = content ∧ ∀ n, find preservedTodoContextPrefix content = some n → n = 0) ∨
      kept.length < content.length := by
  cases h with
  | whole h => exact .inl ⟨rfl, h⟩
  | list front gone rest _ hcontent =>
    right
    have hfront := (List.rdropWhile_prefix isSpace front).length_le
    have hrest := ((dropModelSwitch_suffix _).trans (dropDelimiter_suffix rest)).length_le
    have hheader : 2 < preservedTodoContextPrefix.length := by decide +kernel
    have hkept : (if isBlankLine (dropModelSwitch (dropDelimiter rest)) then ([] : List Char) else
        '\n' :: '\n' :: dropModelSwitch (dropDelimiter rest)).length ≤ 2 + rest.length := by
      split
      · exact Nat.zero_le _
      · simp only [List.length_cons]
        omega
    rw [hcontent]
    simp only [List.length_append] at *
    omega

/-- A content that stripping leaves alone: no task list behind its start, no note in front. -/
def Settled (content : List Char) : Prop :=
  (∀ n, find preservedTodoContextPrefix content = some n → n = 0) ∧ startsWithNote content = false

theorem strip_eq_self (content : List Char) : stripVolatileHostScaffolding content = content ↔ Settled content := by
  have hnote := (dropModelSwitch_suffix (cutTodo content)).length_le
  rw [stripVolatileHostScaffolding]
  obtain ⟨hkept, hwhole⟩ | hlt := (cutTodo_cut content).whole_or_lt
  · rw [hkept]
    constructor
    · intro heq
      refine ⟨hwhole, ?_⟩
      by_contra hstart
      have hlt := dropModelSwitch_lt (Bool.not_eq_false _ ▸ hstart)
      rw [heq] at hlt
      exact lt_irrefl _ hlt
    · exact fun h => dropModelSwitch_of_not h.2
  · constructor
    · intro heq
      rw [heq] at hnote
      omega
    · rintro ⟨hzero, -⟩
      have hkept : cutTodo content = content := by
        rw [cutTodo]
        split
        · rfl
        · rfl
        · next start hpos hfind => exact absurd (hzero start hfind) hpos
      rw [hkept] at hlt
      exact absurd hlt (lt_irrefl _)

theorem Cut.occurrences_note {content kept : List Char} (h : Cut content kept) :
    occurrences modelSwitchNotificationPrefix kept ≤ occurrences modelSwitchNotificationPrefix content := by
  cases h with
  | whole => exact Nat.le_refl _
  | list front gone rest _ hcontent =>
    have hrest := (dropModelSwitch_suffix _).trans (dropDelimiter_suffix rest)
    have hfront := occurrences_le modelSwitchNotificationPrefix (List.rdropWhile_prefix isSpace front).isInfix
    have hback := occurrences_le modelSwitchNotificationPrefix hrest.isInfix
    have hparts := occurrences_append_le modelSwitchNotificationPrefix front
      (preservedTodoContextPrefix ++ gone ++ rest)
    have hbehind := occurrences_append_le modelSwitchNotificationPrefix (preservedTodoContextPrefix ++ gone) rest
    rw [hcontent]
    split
    · rw [List.append_nil]
      omega
    · have hbreak := occurrences_append_cons note_oneLine note_ne_nil [] (dropModelSwitch (dropDelimiter rest))
      rw [List.nil_append, occurrences, Nat.zero_add] at hbreak
      rw [occurrences_append_cons note_oneLine note_ne_nil, hbreak]
      omega

/-- One list and one note are gone after one time. -/
theorem settled_strip {content : List Char} (htodo : occurrences preservedTodoContextPrefix content ≤ 1)
    (hnote : occurrences modelSwitchNotificationPrefix content ≤ 1) :
      Settled (stripVolatileHostScaffolding content) := by
  have hcut := cutTodo_cut content
  have hlast := not_startsWithNote_drop (hcut.occurrences_note.trans hnote)
  refine ⟨?_, hlast⟩
  rw [stripVolatileHostScaffolding]
  generalize cutTodo content = kept at hcut
  have hgone : ∀ {text : List Char}, find preservedTodoContextPrefix text = none →
      find preservedTodoContextPrefix (dropModelSwitch text) = none := by
    intro text hnone
    rw [find_eq_none] at hnone ⊢
    exact fun h => hnone (h.trans (dropModelSwitch_suffix text).isInfix)
  cases hcut with
  | whole h =>
    cases hfind : find preservedTodoContextPrefix content with
    | none =>
      intro n hn
      rw [hgone hfind] at hn
      cases hn
    | some n =>
      -- A content that starts with the header has no note in front.
      obtain rfl := h n hfind
      have hstarts := (prefix_of_find hfind).1
      have hstart : startsWithNote content = false := by
        rw [startsWithNote, decide_eq_false_iff_not, List.isPrefixOf_iff_prefix]
        rintro ⟨hswitch, -⟩
        have hshort : preservedTodoContextPrefix.length ≤ modelSwitchNotificationPrefix.length ∨
            modelSwitchNotificationPrefix.length ≤ preservedTodoContextPrefix.length := Nat.le_total _ _
        obtain hle | hle := hshort
        · exact absurd (List.prefix_of_prefix_length_le hstarts hswitch hle) (by decide +kernel)
        · exact absurd (List.prefix_of_prefix_length_le hswitch hstarts hle) (by decide +kernel)
      rw [dropModelSwitch_of_not hstart]
      exact h
  | list front gone rest _ hcontent =>
    have hparts := occurrences_append_le preservedTodoContextPrefix front (preservedTodoContextPrefix ++ gone ++ rest)
    have hbehind := occurrences_append_le preservedTodoContextPrefix (preservedTodoContextPrefix ++ gone) rest
    have hone : 1 ≤ occurrences preservedTodoContextPrefix (preservedTodoContextPrefix ++ gone) :=
      one_le_occurrences todo_ne_nil (List.prefix_append _ _).isInfix
    rw [← hcontent] at hparts
    have hnone : ∀ {text : List Char}, occurrences preservedTodoContextPrefix text = 0 →
        ¬ preservedTodoContextPrefix <:+: text :=
      fun h => find_eq_none.mp ((occurrences_eq_zero todo_ne_nil).mp h)
    have hfront : ¬ preservedTodoContextPrefix <:+: front.rdropWhile isSpace :=
      fun h => hnone (by omega) (h.trans (List.rdropWhile_prefix isSpace front).isInfix)
    have hrest : ¬ preservedTodoContextPrefix <:+: dropModelSwitch (dropDelimiter rest) :=
      fun h => hnone (by omega) (h.trans ((dropModelSwitch_suffix _).trans (dropDelimiter_suffix rest)).isInfix)
    intro n hn
    rw [hgone (find_joined hfront hrest)] at hn
    cases hn

/-- Stripping a second time changes a content that stripping has not settled, and only such a content; one task list and
one note are settled. -/
theorem strip_twice :
    (∀ content, stripVolatileHostScaffolding (stripVolatileHostScaffolding content) =
      stripVolatileHostScaffolding content ↔
      Settled (stripVolatileHostScaffolding content)) ∧
    ∀ content, occurrences preservedTodoContextPrefix content ≤ 1 →
      occurrences modelSwitchNotificationPrefix content ≤ 1 →
      stripVolatileHostScaffolding (stripVolatileHostScaffolding content) = stripVolatileHostScaffolding content :=
  ⟨fun _ => strip_eq_self _, fun _ htodo hnote => (strip_eq_self _).mpr (settled_strip htodo hnote)⟩

/-- Two texts with a task list behind each, and two notes in front of a text. -/
theorem strip_once_more :
    let merged := ("a".toList ++ preservedTodoContextPrefix) ++
      '\n' :: '\n' :: ("b".toList ++ preservedTodoContextPrefix)
    let noted := (modelSwitchNotificationPrefix ++ "A]\n".toList) ++ (modelSwitchNotificationPrefix ++ "B]\nhi".toList)
    stripVolatileHostScaffolding (stripVolatileHostScaffolding merged) ≠ stripVolatileHostScaffolding merged ∧
      stripVolatileHostScaffolding (stripVolatileHostScaffolding noted) ≠ stripVolatileHostScaffolding noted := by
  decide +kernel

end Reconcile
