import Mathlib

/-!
# JSON texts

Values and the text that an encoder writes for them, with the separators, the
key order and the escaping left to a style. A quoted string can be read back from
the front of a text, so no two lists of strings are written alike.
-/
namespace Json

inductive Value where
  | null
  | bool (b : Bool)
  | int (n : Int)
  /-- A number with a fraction or an exponent, as it is written from its first character on. -/
  | float (first : Char) (rest : String)
  | str (s : String)
  | arr (items : List Value)
  | obj (members : List (String × Value))
deriving Repr

structure Style where
  /-- Only printable ASCII characters are written as they are. -/
  ascii : Bool
  comma : List Char
  colon : List Char
  sorted : Bool

def compact : Style := ⟨false, [','], [':'], true⟩

def hexDigit (n : Nat) : Char := if n < 10 then Char.ofNat (48 + n) else Char.ofNat (87 + n)

def hexValue (c : Char) : Option Nat :=
  let n := c.toNat
  if 48 ≤ n ∧ n ≤ 57 then some (n - 48)
  else if 97 ≤ n ∧ n ≤ 102 then some (n - 87)
  else if 65 ≤ n ∧ n ≤ 70 then some (n - 55)
  else none

/-- `\uXXXX` of a code unit. -/
def unicodeEscape (n : Nat) : List Char :=
  ['\\', 'u', hexDigit (n / 4096 % 16), hexDigit (n / 256 % 16), hexDigit (n / 16 % 16), hexDigit (n % 16)]

/-- The escape of a character outside the range that is written as it is. -/
def escapeOther (c : Char) : List Char :=
  if c.toNat < 0x10000 then unicodeEscape c.toNat
  else
    unicodeEscape (0xd800 + (c.toNat - 0x10000) / 1024) ++ unicodeEscape (0xdc00 + (c.toNat - 0x10000) % 1024)

def escape (ascii : Bool) (c : Char) : List Char :=
  if c = '"' then ['\\', '"']
  else if c = '\\' then ['\\', '\\']
  else if c = '\n' then ['\\', 'n']
  else if c = '\r' then ['\\', 'r']
  else if c = '\t' then ['\\', 't']
  else if c.toNat = 12 then ['\\', 'f']
  else if c.toNat = 8 then ['\\', 'b']
  else if c.toNat < 32 ∨ (ascii ∧ 126 < c.toNat) then escapeOther c
  else [c]

def quote (ascii : Bool) (s : String) : List Char := '"' :: s.toList.flatMap (escape ascii) ++ ['"']

mutual

def dumps (style : Style) : Value → List Char
  | .null => "null".toList
  | .bool b => (if b then "true" else "false").toList
  | .int n => (toString n).toList
  | .float first rest => first :: rest.toList
  | .str s => quote style.ascii s
  | .arr items => '[' :: style.comma.intercalate (dumpsItems style items) ++ [']']
  | .obj members =>
    let texts := dumpsMembers style members
    let ordered := if style.sorted then texts.insertionSort fun a b => a.1 ≤ b.1 else texts
    '{' :: style.comma.intercalate (ordered.map fun m => quote style.ascii m.1 ++ style.colon ++ m.2) ++ ['}']

def dumpsItems (style : Style) : List Value → List (List Char)
  | [] => []
  | v :: items => dumps style v :: dumpsItems style items

def dumpsMembers (style : Style) : List (String × Value) → List (String × List Char)
  | [] => []
  | (key, v) :: members => (key, dumps style v) :: dumpsMembers style members

end

theorem dumpsItems_map (style : Style) (items : List Value) : dumpsItems style items = items.map (dumps style) := by
  induction items with
  | nil => rfl
  | cons v items ih => rw [dumpsItems, ih, List.map_cons]

theorem dumpsMembers_map (style : Style) (members : List (String × Value)) :
    dumpsMembers style members = members.map fun m => (m.1, dumps style m.2) := by
  induction members with
  | nil => rfl
  | cons m members ih => rw [dumpsMembers, ih, List.map_cons]

/-! ## How long a text is -/

theorem length_intercalate {sep : List Char} {parts : List (List Char)} (h : parts ≠ []) :
    (sep.intercalate parts).length + sep.length = (parts.map fun part => part.length + sep.length).sum := by
  induction parts with
  | nil => exact absurd rfl h
  | cons part parts ih =>
    cases parts with
    | nil => simp
    | cons next parts =>
      have hrest := ih (List.cons_ne_nil next parts)
      rw [List.intercalate_cons_cons, List.map_cons, List.sum_cons, ← hrest]
      simp only [List.length_append]
      omega

theorem length_dumps_arr (style : Style) {items : List Value} (h : items ≠ []) :
    (dumps style (.arr items)).length + style.comma.length =
      (items.map fun v => (dumps style v).length + style.comma.length).sum + 2 := by
  have hsum := @length_intercalate style.comma (items.map (dumps style)) (by simpa using h)
  rw [List.map_map] at hsum
  rw [dumps, dumpsItems_map]
  simp only [List.length_append, List.length_cons, List.length_nil]
  refine Eq.trans ?_ (congrArg (· + 2) hsum)
  omega

/-- The order of the members does not change the length. -/
theorem length_dumps_obj (style : Style) {members : List (String × Value)} (h : members ≠ []) :
    (dumps style (.obj members)).length + style.comma.length =
      (members.map fun m => (quote style.ascii m.1).length + style.colon.length +
      (dumps style m.2).length + style.comma.length).sum + 2 := by
  let ordered := if style.sorted then (dumpsMembers style members).insertionSort fun a b => a.1 ≤ b.1
    else dumpsMembers style members
  have hperm : ordered.Perm (members.map fun m => (m.1, dumps style m.2)) := by
    rw [← dumpsMembers_map]
    simp only [ordered]
    split
    · exact List.perm_insertionSort _ _
    · exact .refl _
  have hne : ordered ≠ [] := by
    intro hnil
    rw [hnil] at hperm
    exact h (List.map_eq_nil_iff.mp hperm.nil_eq.symm)
  have hsum := @length_intercalate style.comma
    (ordered.map fun m => quote style.ascii m.1 ++ style.colon ++ m.2) (by simpa using hne)
  rw [List.map_map, (hperm.map _).sum_nat, List.map_map] at hsum
  have htext : (dumps style (.obj members)).length =
      (style.comma.intercalate (ordered.map fun m => quote style.ascii m.1 ++ style.colon ++ m.2)).length + 2 := by
    rw [dumps]
    simp [ordered]
  rw [htext, Nat.add_right_comm, hsum]
  simp [Function.comp_def, Nat.add_assoc]

theorem dumps_ne_nil (style : Style) (v : Value) : dumps style v ≠ [] := by
  cases v with
  | null => simp [dumps]
  | bool b => cases b <;> simp [dumps]
  | int n =>
    simp only [dumps, Int.toString_eq_repr, Int.repr_eq_if]
    split <;> simp
  | float first rest => simp [dumps]
  | str s => simp [dumps, quote]
  | arr items => simp [dumps]
  | obj members => simp [dumps]

/-- Only the empty list is written as an empty one. -/
theorem dumps_arr_eq_nil {style : Style} {items : List Value}
    (h : dumps style (.arr items) = ['[', ']']) : items = [] := by
  cases items with
  | nil => rfl
  | cons v items =>
    rw [dumps, dumpsItems_map, List.map_cons] at h
    have hpos := List.length_pos_of_ne_nil (dumps_ne_nil style v)
    have hlen := congrArg List.length h
    cases items with
    | nil => simp [dumps_ne_nil] at h
    | cons w items =>
      simp at hlen
      omega

/-! ## Reading a text back -/

def simpleEscape (c : Char) : Option Char :=
  if c = '"' then some '"'
  else if c = '\\' then some '\\'
  else if c = '/' then some '/'
  else if c = 'b' then some (Char.ofNat 8)
  else if c = 'f' then some (Char.ofNat 12)
  else if c = 'n' then some '\n'
  else if c = 'r' then some '\r'
  else if c = 't' then some '\t'
  else none

def hexUnit : List Char → Option (Nat × List Char)
  | a :: b :: c :: d :: rest => do
    some ((((← hexValue a) * 16 + (← hexValue b)) * 16 + (← hexValue c)) * 16 + (← hexValue d), rest)
  | _ => none

/-- The character that the code unit after `\u` stands for, with the second unit of a pair. A unit that is half
of a pair stands for no character. -/
def unicodeChar (text : List Char) : Option (Char × List Char) :=
  match hexUnit text with
  | none => none
  | some (n, rest) =>
    if n < 0xd800 ∨ 0xdfff < n then some (Char.ofNat n, rest)
    else
      match rest with
      | '\\' :: 'u' :: rest =>
        match hexUnit rest with
        | some (m, rest) =>
          if n ≤ 0xdbff ∧ 0xdc00 ≤ m ∧ m ≤ 0xdfff then
            some (Char.ofNat (0x10000 + (n - 0xd800) * 1024 + (m - 0xdc00)), rest)
          else none
        | none => none
      | _ => none

/-- The first character of a string's text, unless that is its end. -/
def unescape : List Char → Option (Char × List Char)
  | [] => none
  | c :: rest =>
    if c = '"' ∨ c.toNat < 32 then none
    else if c = '\\' then
      match rest with
      | [] => none
      | k :: rest => if k = 'u' then unicodeChar rest else (simpleEscape k).map fun d => (d, rest)
    else some (c, rest)

theorem hexUnit_append {text rest : List Char} {n : Nat} (h : hexUnit text = some (n, rest)) (more : List Char) :
    hexUnit (text ++ more) = some (n, rest ++ more) := by
  unfold hexUnit at h
  split at h
  · next a b c d rest' =>
    simp only [List.cons_append, hexUnit]
    cases ha : hexValue a <;> cases hb : hexValue b <;> cases hc : hexValue c <;> cases hd : hexValue d <;>
      simp [ha, hb, hc, hd] at h ⊢
    obtain ⟨rfl, rfl⟩ := h
    simp
  · cases h

/-- Reading an escape does not look beyond it. -/
theorem unicodeChar_append {text rest : List Char} {c : Char} (h : unicodeChar text = some (c, rest))
    (more : List Char) :
    unicodeChar (text ++ more) = some (c, rest ++ more) := by
  unfold unicodeChar at h ⊢
  cases hunit : hexUnit text with
  | none =>
    rw [hunit] at h
    cases h
  | some p =>
    obtain ⟨n, rest₁⟩ := p
    rw [hexUnit_append hunit]
    rw [hunit] at h
    dsimp only at h ⊢
    split at h
    · next hplain =>
      rw [if_pos hplain]
      cases h
      rfl
    · next hpair =>
      rw [if_neg hpair]
      split at h
      · next rest₂ =>
        simp only [List.cons_append]
        split at h
        · next m rest₃ hunit₂ =>
          rw [hexUnit_append hunit₂]
          dsimp only
          split at h
          · next hvalid =>
            rw [if_pos hvalid]
            simp only [Option.some.injEq, Prod.mk.injEq] at h ⊢
            exact ⟨h.1, by rw [h.2]⟩
          · cases h
        · cases h
      · cases h

/-- Unescaping does not look beyond its character. -/
theorem unescape_append {text rest : List Char} {c : Char} (h : unescape text = some (c, rest)) (more : List Char) :
    unescape (text ++ more) = some (c, rest ++ more) := by
  cases text with
  | nil => cases h
  | cons d text =>
    simp only [List.cons_append, unescape] at h ⊢
    split at h
    · cases h
    · next hopen =>
      rw [if_neg hopen]
      split at h
      · next hslash =>
        rw [if_pos hslash]
        cases text with
        | nil => cases h
        | cons k text =>
          simp only [List.cons_append] at h ⊢
          split at h
          · next hu =>
            rw [if_pos hu]
            exact unicodeChar_append h more
          · next hu =>
            rw [if_neg hu]
            cases hk : simpleEscape k with
            | none => simp [hk] at h
            | some e =>
              simp only [hk, Option.map_some, Option.some.injEq, Prod.mk.injEq] at h ⊢
              exact ⟨h.1, by rw [h.2]⟩
      · next hslash =>
        rw [if_neg hslash]
        cases h
        rfl

theorem unescape_ascii : ∀ n < 128, unescape (escape false (Char.ofNat n)) =
    some (Char.ofNat n, []) := by decide +kernel

/-- What `escape` writes for a character is read back as that character. -/
theorem unescape_escape (c : Char) (rest : List Char) : unescape (escape false c ++ rest) = some (c, rest) := by
  have hread : unescape (escape false c) = some (c, []) := by
    by_cases hlow : c.toNat < 128
    · have hascii := unescape_ascii c.toNat hlow
      rwa [Char.ofNat_toNat] at hascii
    · have hplain : ∀ d : Char, d.toNat < 128 → c ≠ d := by
        intro d hd he
        exact hlow (he ▸ hd)
      have hescape : escape false c = [c] := by
        simp only [escape, hplain '"' (by decide), hplain '\\' (by decide), hplain '\n' (by decide),
          hplain '\r' (by decide),
          hplain '\t' (by decide), if_false, Bool.false_eq_true, false_and, or_false]
        rw [if_neg (by omega), if_neg (by omega), if_neg (by omega)]
      rw [hescape, unescape, if_neg, if_neg (hplain _ (by decide))]
      rintro (hquote | hcontrol)
      · exact hplain _ (by decide) hquote
      · omega
  simpa using unescape_append hread rest

/-- A writer whose output can be told from what follows it. -/
def Readable {α : Type} (f : α → List Char) : Prop :=
  ∀ a a' rest rest', f a ++ rest = f a' ++ rest' → a = a' ∧ rest = rest'

theorem escapes_readable (s s' : List Char) : ∀ rest rest',
    s.flatMap (escape false) ++ '"' :: rest = s'.flatMap (escape false) ++ '"' :: rest' → s = s' ∧ rest = rest' := by
  induction s generalizing s' with
  | nil =>
    intro rest rest' h
    cases s' with
    | nil => exact ⟨rfl, by simpa using h⟩
    | cons c s' =>
      have hread := unescape_escape c (s'.flatMap (escape false) ++ '"' :: rest')
      rw [← List.append_assoc, ← List.flatMap_cons, ← h] at hread
      cases hread
  | cons c s ih =>
    intro rest rest' h
    have hread := unescape_escape c (s.flatMap (escape false) ++ '"' :: rest)
    rw [← List.append_assoc, ← List.flatMap_cons, h] at hread
    cases s' with
    | nil => cases hread
    | cons c' s' =>
      rw [List.flatMap_cons, List.append_assoc, unescape_escape, Option.some.injEq, Prod.mk.injEq] at hread
      obtain ⟨rfl, htail⟩ := hread
      obtain ⟨rfl, hrest⟩ := ih s' rest rest' htail.symm
      exact ⟨rfl, hrest⟩

theorem quote_readable : Readable (quote false) := by
  intro s s' rest rest' h
  simp only [quote, List.cons_append, List.append_assoc, List.cons.injEq, true_and, List.nil_append] at h
  obtain ⟨hs, hrest⟩ := escapes_readable _ _ rest rest' h
  exact ⟨String.toList_inj.mp hs, hrest⟩

theorem intercalate_concat (l : List (List Char)) (item : List Char) :
    [','].intercalate (l ++ [item]) = [','].intercalate l ++ (if l = [] then [] else [',']) ++ item := by
  induction l with
  | nil => simp
  | cons a l ih =>
    cases l with
    | nil => simp
    | cons b l =>
      simp only [List.cons_append, List.intercalate_cons_cons, reduceCtorEq, if_false] at ih ⊢
      rw [ih]
      simp

/-- What follows the first item of a list: the next items, or the bracket that closes it. -/
def following {α : Type} (f : α → List Char) (l : List α) (rest : List Char) : List Char :=
  match l with
  | [] => ']' :: rest
  | a :: l => ',' :: (f a ++ following f l rest)

theorem intercalate_following {α : Type} (f : α → List Char) (a : α) (l : List α) (rest : List Char) :
    [','].intercalate ((a :: l).map f) ++ ']' :: rest = f a ++ following f l rest := by
  induction l generalizing a with
  | nil => simp [following]
  | cons b l ih =>
    rw [List.map_cons, List.map_cons, List.intercalate_cons_cons, ← List.map_cons,
      List.append_assoc, List.append_assoc, ih]
    rfl

theorem following_readable {α : Type} {f : α → List Char} (hf : Readable f) (l : List α) :
    ∀ l' rest rest', following f l rest = following f l' rest' → l = l' ∧ rest = rest' := by
  induction l with
  | nil =>
    intro l' rest rest' h
    cases l' with
    | nil => exact ⟨rfl, by simpa [following] using h⟩
    | cons b l' => cases h
  | cons a l ih =>
    intro l' rest rest' h
    cases l' with
    | nil => cases h
    | cons b l' =>
      simp only [following, List.cons.injEq, true_and] at h
      obtain ⟨rfl, htail⟩ := hf _ _ _ _ h
      obtain ⟨rfl, hrest⟩ := ih _ _ _ htail
      exact ⟨rfl, hrest⟩

/-- A list of readable items between brackets is readable. -/
theorem items_readable {α : Type} {f : α → List Char} (hf : Readable f) (hopen : ∀ a, ∃ c w, f a = c :: w ∧ c ≠ ']') :
    Readable fun l : List α => '[' :: [','].intercalate (l.map f) ++ [']'] := by
  have hclosed : ∀ a (w rest : List Char), f a ++ w ≠ ']' :: rest := by
    intro a w rest h
    obtain ⟨c, w', ha, hc⟩ := hopen a
    rw [ha, List.cons_append, List.cons.injEq] at h
    exact hc h.1
  intro l l' rest rest' h
  simp only [List.cons_append, List.append_assoc, List.nil_append, List.cons.injEq, true_and] at h
  cases l with
  | nil =>
    cases l' with
    | nil => exact ⟨rfl, by simpa using h⟩
    | cons b l' =>
      rw [intercalate_following] at h
      exact absurd h.symm (hclosed _ _ _)
  | cons a l =>
    rw [intercalate_following] at h
    cases l' with
    | nil => exact absurd h (hclosed _ _ _)
    | cons b l' =>
      rw [intercalate_following] at h
      obtain ⟨rfl, htail⟩ := hf _ _ _ _ h
      obtain ⟨rfl, hrest⟩ := following_readable hf _ _ _ _ htail
      exact ⟨rfl, hrest⟩

/-! ## Reading a value -/

def isBlank (c : Char) : Bool := c = ' ' || c = '\t' || c = '\n' || c = '\r'

def skipBlanks (text : List Char) : List Char := text.dropWhile isBlank

/-- A string behind its opening quote, and what follows its closing one. -/
def readString : Nat → List Char → Option (List Char × List Char)
  | 0, _ => none
  | fuel + 1, text =>
    if text.head? = some '"' then some ([], text.tail)
    else do
      let (c, rest) ← unescape text
      let (s, rest) ← readString fuel rest
      some (c :: s, rest)

def isDigit (c : Char) : Bool := '0' ≤ c && c ≤ '9'

/-- The longest text of digits that is read as a number. -/
def mostDigits : Nat := 4300

/-- A number: an integer, or the text of one with a fraction or an exponent. -/
def readNumber (text : List Char) : Option (Value × List Char) :=
  let (sign, body) := if text.head? = some '-' then (['-'], text.tail) else ([], text)
  let whole := if body.head? = some '0' then ['0'] else body.takeWhile isDigit
  let rest := body.drop whole.length
  if whole = [] then none
  else
    let point := if rest.head? = some '.' then rest.tail.takeWhile isDigit else []
    let fraction := if point = [] then [] else '.' :: point
    let rest := rest.drop fraction.length
    let mark := rest.take 1
    let plus := if rest.tail.head? = some '+' ∨ rest.tail.head? = some '-' then rest.tail.take 1 else []
    let power := (rest.tail.drop plus.length).takeWhile isDigit
    let exponent := if (mark = ['e'] ∨ mark = ['E']) ∧ power ≠ [] then mark ++ plus ++ power else []
    if fraction ++ exponent = [] then
      let n : Nat := whole.foldl (fun n c => n * 10 + (c.toNat - 48)) 0
      if mostDigits < whole.length then none else some (.int (if sign = [] then n else -n), rest)
    else
      match sign ++ whole ++ fraction ++ exponent with
      | [] => none
      | first :: more => some (.float first (String.ofList more), rest.drop exponent.length)

/-- The names of values, and of the numbers that are none. -/
def readName (text : List Char) : Option (Value × List Char) :=
  let names : List (List Char × Value) :=
    [("null".toList, .null), ("true".toList, .bool true), ("false".toList, .bool false),
      ("NaN".toList, .float 'N' "aN"),
      ("Infinity".toList, .float 'I' "nfinity"), ("-Infinity".toList, .float '-' "Infinity")]
  (names.find? fun n => n.1.isPrefixOf text).map fun n => (n.2, text.drop n.1.length)

/-- A member replaces an earlier one of its key. -/
def setMember (members : List (String × Value)) (key : String) (v : Value) : List (String × Value) :=
  if key ∈ members.map Prod.fst then members.map fun m => if m.1 = key then (key, v) else m
  else members ++ [(key, v)]

mutual

def readValue : Nat → List Char → Option (Value × List Char)
  | 0, _ => none
  | fuel + 1, text =>
    match text with
    | '"' :: rest => (readString text.length rest).map fun p => (.str (String.ofList p.1), p.2)
    | '[' :: rest =>
      if (skipBlanks rest).head? = some ']' then some (.arr [], (skipBlanks rest).tail)
      else (readItems fuel (skipBlanks rest)).map fun p => (.arr p.1, p.2)
    | '{' :: rest =>
      if (skipBlanks rest).head? = some '\x7d' then some (.obj [], (skipBlanks rest).tail)
      else (readMembers fuel [] (skipBlanks rest)).map fun p => (.obj p.1, p.2)
    | _ => (readName text).or (readNumber text)

/-- The items up to the closing bracket. -/
def readItems : Nat → List Char → Option (List Value × List Char)
  | 0, _ => none
  | fuel + 1, text => do
    let (v, rest) ← readValue fuel text
    match skipBlanks rest with
    | ']' :: rest => some ([v], rest)
    | ',' :: rest =>
      let (items, rest) ← readItems fuel (skipBlanks rest)
      some (v :: items, rest)
    | _ => none

/-- The members up to the closing brace. -/
def readMembers : Nat → List (String × Value) → List Char → Option (List (String × Value) × List Char)
  | 0, _, _ => none
  | fuel + 1, members, text =>
    match text with
    | '"' :: rest => do
      let (key, rest) ← readString text.length rest
      match skipBlanks rest with
      | ':' :: rest =>
        let (v, rest) ← readValue fuel (skipBlanks rest)
        let members := setMember members (String.ofList key) v
        match skipBlanks rest with
        | '\x7d' :: rest => some (members, rest)
        | ',' :: rest => readMembers fuel members (skipBlanks rest)
        | _ => none
      | _ => none
    | _ => none

end

/-- The value that a text holds, with nothing but blanks around it. -/
def loads (text : List Char) : Option Value := do
  let (v, rest) ← readValue (2 * text.length + 2) (skipBlanks text)
  if skipBlanks rest = [] then some v else none

end Json
