import LcmX.HostScaffolding
import Mathlib

/-!
# The span of a task list

The line scanner passes the lines of a rendered list and nothing behind them, so
the text that the host merged behind the list is kept.
-/
namespace Reconcile

open Regex PyText

/-! ## Lines of an item are not blank -/

theorem not_blank_of_mem {line : List Char} {c : Char} (hc : c ∈ line)
    (hspace : isSpace c = false) : isBlankLine line = false := by
  rw [isBlankLine, List.all_eq_false]
  exact ⟨c, hc, by simp [hspace]⟩

theorem item_not_blank {line : List Char} (h : isTodoItemLine line = true) : isBlankLine line = false := by
  rw [isTodoItemLine, matchText, Option.isSome_map, matchAt, Option.isSome_iff_exists] at h
  obtain ⟨s, hs⟩ := h
  obtain ⟨t, ht, hrest⟩ := List.mem_flatMap.mp (List.mem_of_head? hs)
  obtain ⟨u, hu, -⟩ := List.mem_flatMap.mp hrest
  obtain ⟨w, hw⟩ := run_reaches _ ht
  have hline : line = w ++ t.ahead := hw.2
  have hdash : '-' ∈ t.ahead := (isPrefix_of_run_lit hu).subset (by simp)
  exact not_blank_of_mem (hline ▸ List.mem_append_right w hdash) (by decide)

theorem status_not_blank {line : List Char} (h : endsTodoItem line = true) : isBlankLine line = false := by
  by_contra hblank
  rw [Bool.not_eq_false, isBlankLine, List.all_eq_true] at hblank
  have hnone : search todoItemEndRe [] line = none := by
    refine search_eq_none fun u v huv => ?_
    refine List.eq_nil_iff_forall_not_mem.mpr fun t ht => ?_
    obtain ⟨s, hs, -⟩ := List.mem_flatMap.mp ht
    have hparen : '(' ∈ v := (isPrefix_of_run_lit hs).subset (by simp)
    have hspace := hblank '(' (huv ▸ List.mem_append_right u hparen)
    exact absurd hspace (by decide)
  rw [endsTodoItem, hnone] at h
  cases h

/-! ## Walking over the lines -/

/-- The lines with the break in front of each. -/
def width (lines : List (List Char)) : Nat := (lines.map fun line => 1 + line.length).sum

@[simp] theorem width_nil : width [] = 0 := rfl

@[simp] theorem width_cons (line : List Char) (lines : List (List Char)) :
    width (line :: lines) = 1 + line.length + width lines := rfl

@[simp] theorem width_append (a b : List (List Char)) : width (a ++ b) = width a + width b := by
  simp [width]

theorem length_intercalate (line : List Char) (lines : List (List Char)) :
    (['\n'].intercalate (line :: lines)).length = line.length + width lines := by
  induction lines generalizing line with
  | nil => simp
  | cons next lines ih =>
    rw [List.intercalate_cons_cons, List.length_append, List.length_append, ih, width_cons]
    simp
    omega

theorem walk_open {lines : List (List Char)} (h : ∀ line ∈ lines, endsTodoItem line = false)
    (spanEnd : Nat) (rest : List (List Char)) :
    todoSpanFrom false true spanEnd (lines ++ rest) = todoSpanFrom false true (spanEnd + width lines) rest := by
  induction lines generalizing spanEnd with
  | nil => rfl
  | cons line lines ih =>
    have hline := h line List.mem_cons_self
    have hnext := ih fun l hl => h l (List.mem_cons_of_mem _ hl)
    have hopen : decide (¬ false = true) = true := rfl
    rw [List.cons_append, todoSpanFrom, if_neg (by simp), hline, hopen, width_cons]
    have hwalk := hnext (spanEnd + (1 + line.length))
    rw [Nat.add_assoc spanEnd] at hwalk
    split <;> exact hwalk

theorem TodoItem.walk (item : TodoItem) (spanEnd : Nat) (rest : List (List Char)) :
    todoSpanFrom false false spanEnd (item.lines ++ rest) = todoSpanFrom false false
    (spanEnd + width item.lines) rest := by
  have hlast : ∀ openItem spanEnd, todoSpanFrom false openItem spanEnd (item.last :: rest) =
      todoSpanFrom false false (spanEnd + (1 + item.last.length)) rest := by
    intro openItem spanEnd
    rw [todoSpanFrom, if_neg (by simp [status_not_blank item.closes]), if_pos (by simp [status_not_blank item.closes])]
    simp [item.closes]
  rw [lines]
  cases hopening : item.opening with
  | nil =>
    rw [List.nil_append, List.singleton_append, hlast, width_cons, width_nil, Nat.add_zero]
  | cons first opening =>
    have hfirst : isBlankLine first = false := by
      have hitem := item.isItem
      simp only [hopening, List.cons_append, List.head_cons] at hitem
      exact item_not_blank hitem
    have hopens : ∀ line ∈ first :: opening, endsTodoItem line = false := hopening ▸ item.opens
    rw [List.cons_append, List.cons_append, todoSpanFrom, if_neg (by simp [hfirst]), if_pos (by simp [hfirst]),
      hopens first List.mem_cons_self, List.append_assoc]
    have hwalk := walk_open (fun l hl => hopens l (List.mem_cons_of_mem _ hl))
      (spanEnd + (1 + first.length)) ([item.last] ++ rest)
    have hopen : decide (¬ false = true) = true := rfl
    rw [hopen, hwalk, List.singleton_append, hlast, width_cons, width_append, width_cons, width_nil]
    congr 1
    omega

theorem walk_items (items : List TodoItem) (spanEnd : Nat) (rest : List (List Char)) :
    todoSpanFrom false false spanEnd (items.flatMap TodoItem.lines ++ rest) =
      todoSpanFrom false false (spanEnd + width (items.flatMap TodoItem.lines)) rest := by
  induction items generalizing spanEnd with
  | nil => rfl
  | cons item items ih =>
    rw [List.flatMap_cons, List.append_assoc, item.walk, ih, width_append, Nat.add_assoc]

theorem walk_notice {lines : List (List Char)} (h : ∀ line ∈ lines, isBlankLine line = false)
    (spanEnd : Nat) (rest : List (List Char)) :
    todoSpanFrom true false spanEnd (lines ++ rest) = todoSpanFrom true false (spanEnd + width lines) rest := by
  induction lines generalizing spanEnd with
  | nil => rfl
  | cons line lines ih =>
    have hline := h line List.mem_cons_self
    rw [List.cons_append, todoSpanFrom, if_neg (by simp [hline]), if_neg (by simp),
      ih fun l hl => h l (List.mem_cons_of_mem _ hl),
      width_cons, Nat.add_assoc]

/-- Behind the items and the notice, an empty line ends the span. -/
theorem walk_end (notice : Bool) (spanEnd : Nat) {rest : List (List Char)}
    (h : ∀ next ∈ rest.head?, ¬ prunedSkillReloadNoticeHeader <+: next) :
      todoSpanFrom notice false spanEnd ([] :: rest) = spanEnd := by
  have hnext : rest.head?.any (fun next => prunedSkillReloadNoticeHeader.isPrefixOf next) = false := by
    cases hhead : rest.head? with
    | none => rfl
    | some next =>
      rw [Option.any_some, Bool.eq_false_iff, ne_eq, List.isPrefixOf_iff_prefix]
      exact h next hhead
  rw [todoSpanFrom, if_pos (by simp [isBlankLine]), if_pos (by simp [hnext])]

namespace TodoSnapshot

variable (t : TodoSnapshot)

theorem walk (spanEnd : Nat) {rest : List (List Char)}
    (h : ∀ next ∈ rest.head?, ¬ prunedSkillReloadNoticeHeader <+: next) :
    todoSpanFrom false false spanEnd (t.itemLines ++ (t.noticeLines ++ [] :: rest)) =
      spanEnd + width (t.itemLines ++ t.noticeLines) := by
  rw [itemLines, walk_items, noticeLines]
  cases t.notice with
  | none =>
    rw [Option.elim_none, List.nil_append, walk_end false _ h, List.append_nil]
  | some notice =>
    have hheader : (notice.lines ++ [] :: rest).head?.any
        (fun next => prunedSkillReloadNoticeHeader.isPrefixOf next) = true := by
      rw [ReloadNotice.lines, List.cons_append, List.head?_cons, Option.any_some, List.isPrefixOf_iff_prefix]
      exact notice.isNotice
    have hblocks : ∀ line ∈ notice.lines, isBlankLine line = false := notice.notBlank
    rw [Option.elim_some, List.cons_append, todoSpanFrom, if_pos (by simp [isBlankLine]), hheader, if_neg (by simp),
      walk_notice hblocks, walk_end true _ h, width_append, width_cons, List.length_nil]
    omega

theorem oneLine_lines : ∀ line ∈ t.lines, '\n' ∉ line := by
  intro line hline
  rw [lines, List.mem_cons, List.mem_append] at hline
  obtain rfl | hitem | hnotice := hline
  · exact t.oneLine
  · obtain ⟨item, -, hmem⟩ := List.mem_flatMap.mp hitem
    exact item.oneLine line hmem
  · rw [noticeLines] at hnotice
    cases hn : t.notice with
    | none => simp [hn] at hnotice
    | some notice =>
      rw [hn, Option.elim_some, List.mem_cons] at hnotice
      obtain rfl | hmem := hnotice
      · exact List.not_mem_nil
      · exact notice.oneLine line hmem

theorem length_text : t.text.length = t.header.length + width (t.itemLines ++ t.noticeLines) := by
  rw [text, lines, length_intercalate]

theorem splitOn_text (v : List Char) :
    (t.text ++ '\n' :: '\n' :: v).splitOn '\n' = t.lines ++ [] :: v.splitOn '\n' := by
  have hblank : ('\n' :: v).splitOn '\n' = [] :: v.splitOn '\n' := List.splitOn_append_cons_self [] v
  rw [List.splitOn_append_cons_self, hblank, text, List.splitOn_intercalate '\n' t.oneLine_lines (by simp [lines])]

/-- The span of a rendered list is the list. -/
theorem span {u v : List Char} (hv : ¬ prunedSkillReloadNoticeHeader <+: v) :
    todoAnnotationSpan (u ++ (t.text ++ '\n' :: '\n' :: v)) u.length = u.length + t.text.length := by
  have hnext : ∀ next ∈ (v.splitOn '\n').head?, ¬ prunedSkillReloadNoticeHeader <+: next := by
    intro next hmem hstarts
    have hjoin : ['\n'].intercalate (v.splitOn '\n') = v := List.intercalate_splitOn '\n'
    obtain ⟨tail, htail⟩ := List.head?_eq_some_iff.mp hmem
    have hfront : next <+: v := by
      rw [← hjoin, htail]
      cases tail with
      | nil => simp
      | cons line tail =>
        rw [List.intercalate_cons_cons, List.append_assoc]
        exact List.prefix_append next _
    exact hv (hstarts.trans hfront)
  have hitem : isTodoItemLine ((t.itemLines ++ (t.noticeLines ++ [] :: v.splitOn '\n')).head (by simp)) = true := by
    have hfirst := t.first.isItem
    rw [itemLines, List.flatMap_cons]
    rw [List.head_append_left (by simp [TodoItem.lines]), List.head_append_left (by simp [TodoItem.lines])]
    exact hfirst
  rw [todoAnnotationSpan, List.drop_left, t.splitOn_text, lines, List.cons_append, List.append_assoc]
  dsimp only
  cases hbody : t.itemLines ++ (t.noticeLines ++ [] :: v.splitOn '\n') with
  | nil => simp at hbody
  | cons item rest =>
    simp only [hbody, List.head_cons] at hitem
    dsimp only
    rw [if_pos hitem, ← hbody, t.walk _ hnext, t.length_text, Nat.add_assoc]

end TodoSnapshot

end Reconcile
