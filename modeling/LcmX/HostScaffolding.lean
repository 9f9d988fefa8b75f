import LcmX.Lib.Occurrences
import LcmX.Lib.Regex

/-!
# Host scaffolding in a content

The host writes its task list behind a user text, and a note about a model switch
in front of it. Both come and go, so the identity of a row is read without them:
the span of the first task list is cut, and one note in front of what is left.
-/
namespace Reconcile

open Regex PyText

def preservedTodoContextPrefix : List Char := "[Your active task list was preserved across context compression]".toList

def prunedSkillReloadNoticeHeader : List Char :=
  "[Skills pruned during compression — reload before acting on these tasks]".toList

def modelSwitchNotificationPrefix : List Char := "[Note: model was just switched from ".toList

/-- `(?:  )*- \[[ x>~?]\] ` -/
def todoItemLineRe : Re :=
  .seq (star (lit [' ', ' ']))
    (.seq (lit ['-', ' ', '[']) (.seq (.char fun c => c ∈ [' ', 'x', '>', '~', '?']) (lit [']', ' '])))

def todoStatuses : List (List Char) := ["pending", "in_progress", "completed", "cancelled"].map String.toList

/-- ` \((?:pending|in_progress|completed|cancelled)\)$` -/
def todoItemEndRe : Re :=
  .seq (lit [' ', '(']) (.seq ((todoStatuses.map lit).foldr .or (.test fun _ _ => false))
    (.seq (lit [')']) (.test fun _ ahead => ahead = [] ∨ ahead = ['\n'])))

def isTodoItemLine (line : List Char) : Bool := (matchText todoItemLineRe [] line).isSome

def endsTodoItem (line : List Char) : Bool := (search todoItemEndRe [] line).isSome

def isBlankLine (line : List Char) : Bool := line.all isSpace

/-- The lines behind the header: `spanEnd` is the end of the lines that were passed. -/
def todoSpanFrom : (notice openItem : Bool) → (spanEnd : Nat) → List (List Char) → Nat
  | _, _, spanEnd, [] => spanEnd
  | notice, openItem, spanEnd, line :: rest =>
    if isBlankLine line ∧ ¬ openItem then
      if notice ∨ ¬ rest.head?.any (fun next => prunedSkillReloadNoticeHeader.isPrefixOf next) then spanEnd
      else todoSpanFrom true openItem (spanEnd + (1 + line.length)) rest
    else if ¬ isBlankLine line ∧ ¬ notice then todoSpanFrom notice (¬ endsTodoItem line)
      (spanEnd + (1 + line.length)) rest
    else todoSpanFrom notice openItem (spanEnd + (1 + line.length)) rest

/-- `_todo_annotation_span` -/
def todoAnnotationSpan (content : List Char) (start : Nat) : Nat :=
  match (content.drop start).splitOn '\n' with
  | [] => start
  | header :: rest =>
    match rest with
    | [] => start + header.length
    | item :: _ => if isTodoItemLine item then todoSpanFrom false false (start + header.length) rest
          else start + header.length

/-- A closed note in front of a content, and the line breaks behind it, are dropped. -/
def dropModelSwitch (content : List Char) : List Char :=
  if modelSwitchNotificationPrefix.isPrefixOf content ∧ ']' ∈ content then
    ((content.dropWhile (· ≠ ']')).drop 1).dropWhile (· = '\n')
  else content

/-- What the host merged behind the task list: one delimiter goes. -/
def dropDelimiter (tail : List Char) : List Char := if ['\n', '\n'].isPrefixOf tail then tail.drop 2 else tail

/-- The first task list is cut, unless it starts the content. -/
def cutTodo (content : List Char) : List Char :=
  match find preservedTodoContextPrefix content with
  | none | some 0 => content
  | some start =>
    let rest := dropModelSwitch (dropDelimiter (content.drop (todoAnnotationSpan content start)))
    (content.take start).rdropWhile isSpace ++ if isBlankLine rest then [] else '\n' :: '\n' :: rest

/-- `_strip_volatile_host_scaffolding` -/
def stripVolatileHostScaffolding (content : List Char) : List Char := dropModelSwitch (cutTodo content)

/-! ## The task list of the host -/

/-- An item of a rendered list: its text may have several lines, and its last line ends with the status. -/
structure TodoItem where
  opening : List (List Char)
  last : List Char
  isItem : isTodoItemLine ((opening ++ [last]).head (by simp)) = true
  opens : ∀ line ∈ opening, endsTodoItem line = false
  closes : endsTodoItem last = true
  oneLine : ∀ line ∈ opening ++ [last], '\n' ∉ line

def TodoItem.lines (item : TodoItem) : List (List Char) := item.opening ++ [item.last]

/-- The lines of a notice about pruned skills. -/
structure ReloadNotice where
  header : List Char
  rest : List (List Char)
  isNotice : prunedSkillReloadNoticeHeader <+: header
  notBlank : ∀ line ∈ header :: rest, isBlankLine line = false
  oneLine : ∀ line ∈ header :: rest, '\n' ∉ line

def ReloadNotice.lines (notice : ReloadNotice) : List (List Char) := notice.header :: notice.rest

structure TodoSnapshot where
  header : List Char
  first : TodoItem
  items : List TodoItem
  notice : Option ReloadNotice
  isHeader : preservedTodoContextPrefix <+: header
  oneLine : '\n' ∉ header

namespace TodoSnapshot

variable (t : TodoSnapshot)

def itemLines : List (List Char) := (t.first :: t.items).flatMap TodoItem.lines

/-- The notice with the empty line in front of it. -/
def noticeLines : List (List Char) := t.notice.elim [] fun notice => [] :: notice.lines

def lines : List (List Char) := t.header :: (t.itemLines ++ t.noticeLines)

def text : List Char := ['\n'].intercalate t.lines

end TodoSnapshot

end Reconcile
