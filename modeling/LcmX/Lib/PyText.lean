import Mathlib.Data.List.Infix
import Mathlib.Data.List.DropRight

/-!
# Python strings

The operations of `str` on texts as lists of characters.
-/
namespace PyText

/-- `str.isspace` of one character, which is also `\s` of a pattern. -/
def isSpace (c : Char) : Bool :=
  let n := c.toNat
  (0x09 ≤ n && n ≤ 0x0d) || (0x1c ≤ n && n ≤ 0x20) || n = 0x85 || n = 0xa0 || n = 0x1680 ||
    (0x2000 ≤ n && n ≤ 0x200a) || n = 0x2028 || n = 0x2029 || n = 0x202f || n = 0x205f || n = 0x3000

/-- The zeros of the decimal digits; the other nine digits follow each of them. -/
def decimalZeros : List Nat :=
  [0x30, 0x660, 0x6f0, 0x7c0, 0x966, 0x9e6, 0xa66, 0xae6, 0xb66, 0xbe6, 0xc66, 0xce6, 0xd66, 0xde6, 0xe50, 0xed0, 0xf20,
    0x1040, 0x1090, 0x17e0, 0x1810, 0x1946, 0x19d0, 0x1a80, 0x1a90, 0x1b50, 0x1bb0, 0x1c40, 0x1c50,
      0xa620, 0xa8d0, 0xa900,
    0xa9d0, 0xa9f0, 0xaa50, 0xabf0, 0xff10, 0x104a0, 0x10d30, 0x11066, 0x110f0, 0x11136, 0x111d0,
      0x112f0, 0x11450, 0x114d0,
    0x11650, 0x116c0, 0x11730, 0x118e0, 0x11950, 0x11c50, 0x11d50, 0x11da0, 0x11f50, 0x16a60, 0x16ac0, 0x16b50, 0x1d7ce,
    0x1d7d8, 0x1d7e2, 0x1d7ec, 0x1d7f6, 0x1e140, 0x1e2f0, 0x1e4f0, 0x1e950, 0x1fbf0]

/-- `\d` of a pattern. -/
def isDecimal (c : Char) : Bool := decimalZeros.any fun z => z ≤ c.toNat && c.toNat ≤ z + 9

/-- Membership of a text is decided with this instance in the modules that open it. -/
theorem lawfulBEq_text : LawfulBEq (List Char) := inferInstance

/-- The characters of a literal, which are not decoded from its bytes. -/
theorem toList_eq {s : String} {l : List Char} (h : s = String.ofList l) : s.toList = l := by
  rw [h, String.toList_ofList]

/-- A fact about each character of a fixed text is one computation. -/
theorem forall_mem_of_all {P : Char → Prop} [DecidablePred P] {w : List Char}
    (h : (w.all fun c => decide (P c)) = true) : ∀ c ∈ w, P c :=
  fun c hc => of_decide_eq_true (List.all_eq_true.mp h c hc)

/-- `needle in text`. -/
def contains (needle text : List Char) : Bool := decide (needle <:+: text)

/-- `text.strip(chars)`. -/
def stripBy (p : Char → Bool) (text : List Char) : List Char := (text.dropWhile p).rdropWhile p

def strip (text : List Char) : List Char := stripBy isSpace text

/-! ## Case -/

/-- `c.lower()`, where a character that is lowered to others outside ASCII stays as it is. -/
def lowerChar (c : Char) : List Char :=
  if c.toNat = 0x212a then ['k'] else if c.toNat = 0x130 then ['i', Char.ofNat 0x307] else [c.toLower]

def lower (text : List Char) : List Char := text.flatMap lowerChar

/-- `c.upper()`, where a character that is raised to others outside ASCII stays as it is. -/
def upperChar (c : Char) : List Char :=
  match c.toNat with
  | 0xdf => ['S', 'S']
  | 0x131 => ['I']
  | 0x149 => [Char.ofNat 0x2bc, 'N']
  | 0x17f => ['S']
  | 0x1f0 => ['J', Char.ofNat 0x30c]
  | 0x1e96 => ['H', Char.ofNat 0x331]
  | 0x1e97 => ['T', Char.ofNat 0x308]
  | 0x1e98 => ['W', Char.ofNat 0x30a]
  | 0x1e99 => ['Y', Char.ofNat 0x30a]
  | 0x1e9a => ['A', Char.ofNat 0x2be]
  | 0xfb00 => ['F', 'F']
  | 0xfb01 => ['F', 'I']
  | 0xfb02 => ['F', 'L']
  | 0xfb03 => ['F', 'F', 'I']
  | 0xfb04 => ['F', 'F', 'L']
  | 0xfb05 => ['S', 'T']
  | 0xfb06 => ['S', 'T']
  | _ => [c.toUpper]

def upper (text : List Char) : List Char := text.flatMap upperChar

/-! ## Words -/

def wordsFrom (word : List Char) : List Char → List (List Char)
  | [] => if word = [] then [] else [word]
  | c :: rest =>
    if isSpace c then (if word = [] then wordsFrom [] rest else word :: wordsFrom [] rest)
    else wordsFrom (word ++ [c]) rest

/-- `text.split()`. -/
def split (text : List Char) : List (List Char) := wordsFrom [] text

/-- `text.split(None, 1)`, when it has two parts: the first word and what follows it. -/
def splitFirst (text : List Char) : Option (List Char × List Char) :=
  let trimmed := text.dropWhile isSpace
  let rest := (trimmed.dropWhile fun c => !isSpace c).dropWhile isSpace
  if rest = [] then none else some (trimmed.takeWhile fun c => !isSpace c, rest)

/-- `text.rsplit(None, 1)`, when it has two parts: what stands before the last word, and that word. -/
def splitLast (text : List Char) : Option (List Char × List Char) :=
  (splitFirst text.reverse).map fun parts => (parts.2.reverse, parts.1.reverse)

/-- `text[start:stop]`. -/
def slice (text : List Char) (start stop : Nat) : List Char := (text.drop start).take (stop - start)

/-! ## Lines -/

def isLineBreak (c : Char) : Bool :=
  let n := c.toNat
  (0x0a ≤ n && n ≤ 0x0d) || (0x1c ≤ n && n ≤ 0x1e) || n = 0x85 || n = 0x2028 || n = 0x2029

/-- A line ends after a character; `\r\n` is one line break. -/
def lineEnds (c : Char) (rest : List Char) : Bool := isLineBreak c && !(c = '\r' && rest.head? = some '\n')

def linesFrom (line : List Char) : List Char → List (List Char)
  | [] => if line = [] then [] else [line]
  | c :: rest => if lineEnds c rest then (line ++ [c]) :: linesFrom [] rest else linesFrom (line ++ [c]) rest

/-- `text.splitlines(keepends=True)`. -/
def splitlinesKeep (text : List Char) : List (List Char) := linesFrom [] text

/-- A line without its line break. -/
def dropLineBreak (line : List Char) : List Char :=
  match line.reverse with
  | [] => []
  | c :: rest =>
    if c = '\n' ∧ rest.head? = some '\r' then rest.tail.reverse
    else if isLineBreak c then rest.reverse
    else line

/-- `text.splitlines()`. -/
def splitlines (text : List Char) : List (List Char) := (splitlinesKeep text).map dropLineBreak

theorem linesFrom_flatten (text : List Char) : ∀ line, (linesFrom line text).flatten = line ++ text := by
  induction text with
  | nil =>
    intro line
    rw [linesFrom]
    split <;> simp_all
  | cons c rest ih =>
    intro line
    rw [linesFrom]
    split <;> simp [ih]

/-- A line feed always ends a line. -/
theorem linesFrom_append (a : List Char) (rest : List Char) : ∀ line,
    linesFrom line (a ++ '\n' :: rest) = linesFrom line (a ++ ['\n']) ++ linesFrom [] rest := by
  induction a with
  | nil =>
    intro line
    have hends : ∀ rest, lineEnds '\n' rest = true := fun rest => by simp [lineEnds, isLineBreak]
    rw [List.nil_append, List.nil_append, linesFrom, if_pos (hends _), linesFrom, if_pos (hends _)]
    rfl
  | cons c a ih =>
    intro line
    have hends : lineEnds c (a ++ '\n' :: rest) = lineEnds c (a ++ ['\n']) := by
      cases a <;> rfl
    rw [List.cons_append, List.cons_append, linesFrom, linesFrom, hends, ih, ih]
    split <;> rfl

theorem linesFrom_plain {a : List Char} (hplain : ∀ c ∈ a, isLineBreak c = false) : ∀ line rest,
    linesFrom line (a ++ rest) = linesFrom (line ++ a) rest := by
  induction a with
  | nil => simp
  | cons c a ih =>
    intro line rest
    have hends : lineEnds c (a ++ rest) = false := by simp [lineEnds, hplain c List.mem_cons_self]
    rw [List.cons_append, linesFrom, hends, if_neg (by decide), ih fun d hd => hplain d (List.mem_cons_of_mem _ hd)]
    simp

theorem splitlinesKeep_append (a rest : List Char) :
    splitlinesKeep (a ++ '\n' :: rest) = splitlinesKeep (a ++ ['\n']) ++ splitlinesKeep rest :=
  linesFrom_append a rest []

/-- A line without other breaks is one line. -/
theorem splitlinesKeep_line {a : List Char} (hplain : ∀ c ∈ a, isLineBreak c = false) (rest : List Char) :
    splitlinesKeep (a ++ '\n' :: rest) = (a ++ ['\n']) :: splitlinesKeep rest := by
  rw [splitlinesKeep_append, splitlinesKeep, linesFrom_plain hplain, linesFrom,
    if_pos (by simp [lineEnds, isLineBreak])]
  rfl

theorem splitlinesKeep_last {a : List Char} (hplain : ∀ c ∈ a, isLineBreak c = false)
    (hne : a ≠ []) : splitlinesKeep a = [a] := by
  have h := linesFrom_plain hplain [] []
  rw [List.append_nil, List.nil_append] at h
  rw [splitlinesKeep, h, linesFrom, if_neg hne]

theorem dropLineBreak_line {a : List Char} (hplain : ∀ c ∈ a, isLineBreak c = false) :
    dropLineBreak (a ++ ['\n']) = a := by
  have hcarriage : ¬ a.getLast? = some '\r' := by
    intro h
    have hbreak := hplain '\r' (List.mem_of_getLast? h)
    simp [isLineBreak] at hbreak
  simp [dropLineBreak, hcarriage, isLineBreak]

theorem dropLineBreak_last {a : List Char} (hplain : ∀ c ∈ a, isLineBreak c = false) : dropLineBreak a = a := by
  rw [dropLineBreak]
  split
  · next h => exact (List.reverse_eq_nil_iff.mp h).symm
  · next c rest h =>
    have hbreak := hplain c (List.mem_reverse.mp (h ▸ List.mem_cons_self))
    have hfeed : ¬ (c = '\n' ∧ rest.head? = some '\r') := by
      rintro ⟨rfl, -⟩
      simp [isLineBreak] at hbreak
    rw [if_neg hfeed, if_neg (by simp [hbreak])]

theorem stripBy_idem (p : Char → Bool) (text : List Char) : stripBy p (stripBy p text) = stripBy p text := by
  have hfront : (stripBy p text).dropWhile p = stripBy p text := by
    rw [List.dropWhile_eq_self_iff]
    intro hpos
    have hstart : stripBy p text <+: text.dropWhile p := List.rdropWhile_prefix p _
    have hhead : 0 < (text.dropWhile p).length := Nat.lt_of_lt_of_le hpos hstart.length_le
    have hfirst := List.dropWhile_get_zero_not p text hhead
    rwa [List.get_eq_getElem, ← hstart.getElem hpos] at hfirst
  rw [stripBy, hfront, stripBy, List.rdropWhile_idempotent]

theorem slice_append (a b c : List Char) : slice (a ++ (b ++ c)) a.length (a.length + b.length) = b := by
  simp [slice]

theorem splitlinesKeep_flatten (text : List Char) : (splitlinesKeep text).flatten = text := linesFrom_flatten text []

/-! ## UTF-8 -/

/-- `text.encode("utf-8")`. -/
def encode (text : List Char) : List UInt8 := text.flatMap String.utf8EncodeChar

@[simp] theorem encode_nil : encode [] = [] := rfl

@[simp] theorem encode_append (a b : List Char) : encode (a ++ b) = encode a ++ encode b := List.flatMap_append

theorem length_encode_le (text : List Char) : (encode text).length ≤ 4 * text.length := by
  induction text with
  | nil => exact Nat.le_refl _
  | cons c text ih =>
    have hchar := c.utf8Size_le_four
    rw [encode, List.flatMap_cons, List.length_append, String.length_utf8EncodeChar, List.length_cons]
    rw [encode] at ih
    omega

theorem encode_utf8Encode (text : List Char) : (encode text).toByteArray = text.utf8Encode := by
  simp [encode, List.utf8Encode]

/-- The bytes of one text start those of another only when the text itself does. -/
theorem isPrefix_of_encode {a b : List Char} {rest : List UInt8} (h : encode a ++ rest = encode b) : a <+: b := by
  apply List.isPrefix_of_utf8Encode_append_eq_utf8Encode rest.toByteArray
  rw [← encode_utf8Encode, ← encode_utf8Encode, ← h]
  simp

theorem encode_inj {a b : List Char} (h : encode a = encode b) : a = b := by
  have hab : a <+: b := isPrefix_of_encode (show encode a ++ [] = encode b by rw [List.append_nil, h])
  have hba : b <+: a := isPrefix_of_encode (show encode b ++ [] = encode a by rw [List.append_nil, h])
  exact hab.eq_of_length_le hba.length_le

/-- `bytes.decode("utf-8")`, when it does not raise. -/
def decode (bytes : List UInt8) : Option (List Char) := bytes.toByteArray.utf8Decode?.map Array.toList

@[simp] theorem decode_encode (text : List Char) : decode (encode text) = some text := by
  simp [decode, encode_utf8Encode]

end PyText
