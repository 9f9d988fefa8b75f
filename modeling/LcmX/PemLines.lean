import LcmX.Lib.PyText
import LcmX.Lib.Regex

/-!
# Lines of a text with private keys

Every line of a text gets one of eleven kinds, from what stands in it alone. A
line of a serialized text is cut at its escaped line breaks and quotes first.
All offsets are those of the text.
-/
namespace Pem

open Regex PyText

/-! ## Patterns -/

/-- `[A-Za-z0-9+/]`. -/
def isBodyChar (c : Char) : Bool := isAsciiAlnum c || c = '+' || c = '/'

/-- `^[A-Za-z0-9+/]+={0,2}$`. -/
def isBodyChars (text : List Char) : Bool :=
  let padding := text.dropWhile isBodyChar
  text.takeWhile isBodyChar ≠ [] ∧ (padding = [] ∨ padding = ['='] ∨ padding = ['=', '='])

/-- `[A-Za-z0-9+/]{16,}`. -/
def inlineRunRe : Re := atLeast 16 (.char isBodyChar)

/-- `[A-Za-z0-9+/=\t\\ ]*`. -/
def isInlineSpan (text : List Char) : Bool :=
  text.all fun c => isBodyChar c || c = '=' || c = '\t' || c = '\\' || c = ' '

/-- `^[A-Za-z0-9-]{2,32}:\s?\S.*$`. -/
def armorHeaderRe : Re :=
  .seq (.rep false 2 (some 32) (.char fun c => isAsciiAlnum c || c = '-'))
    (.seq (.char (· = ':')) (.seq (opt (.char isSpace))
    (.seq (.char fun c => !isSpace c) (star (.char (· ≠ '\n'))))))

def isArmorHeader (text : List Char) : Bool := (fullmatch armorHeaderRe [] text).isSome

/-- `[A-Z0-9 ]`, ignoring the case. -/
def isLabelChar (c : Char) : Bool := isAlnumIgnoringCase c || c = ' '

/-- `-----<word> [A-Z0-9 ]*PRIVATE KEY-----`, ignoring the case. -/
def markerRe (word : List Char) : Re :=
  .seq (litIgnoringCase ("-----".toList ++ word ++ [' ']))
    (.seq (star (.char isLabelChar)) (litIgnoringCase "PRIVATE KEY-----".toList))

def beginRe : Re := markerRe "BEGIN".toList

def endRe : Re := markerRe "END".toList

/-- `-----(?:BEGIN|END) [A-Z0-9 _-]*[A-Z0-9]-----`, ignoring the case. -/
def anyMarkerRe : Re :=
  .seq (lit "-----".toList)
    (.seq (.or (litIgnoringCase "BEGIN".toList) (litIgnoringCase "END".toList)) (.seq (.char (· = ' '))
    (.seq (star (.char fun c => isLabelChar c || c = '_' || c = '-'))
      (.seq (.char isAlnumIgnoringCase) (lit "-----".toList)))))

/-- `\\[rnfu]|[\"']`. -/
def escapedSeparatorHintRe : Re :=
  .or (.seq (.char (· = '\\')) (.char fun c => c = 'r' || c = 'n' || c = 'f' || c = 'u'))
    (.char fun c => c = '"' || c = '\'')

def isHorizontal (c : Char) : Bool := c = ' ' || c = '\t'

/-- `"PRIVATE KEY-----" in text.upper()`. -/
def hasPrivateKey (text : List Char) : Bool := contains "PRIVATE KEY-----".toList (upper text)

/-! ## Serialized text -/

def slashes (text : List Char) : List Char := text.takeWhile (· = '\\')

def pastSlashes (text : List Char) : List Char := text.dropWhile (· = '\\')

/-- The length of a line separator behind its backslashes. -/
def separatorLength : List Char → Option Nat
  | 'n' :: _ => some 1
  | 'f' :: _ => some 1
  | 'r' :: rest => if slashes rest ≠ [] ∧ (pastSlashes rest).head? = some 'n' then
        some ((slashes rest).length + 2) else some 1
  | 'u' :: rest =>
    if String.ofList (rest.take 4) ∈ ["000b", "000c", "001c", "001d", "001e", "0085", "2028", "2029"] then
      some 5 else none
  | _ => none

/-- The pieces of a line with their offsets: the one that starts at `start` has `piece` so far, and `i` is the offset of
the text that is left. -/
def serializedPieces : Nat → Nat → Nat → List Char → List Char → List (Nat × List Char)
  | 0, start, _, piece, _ => [(start, piece)]
  | _ + 1, start, _, piece, [] => [(start, piece)]
  | fuel + 1, start, i, piece, c :: rest =>
    if c = '"' ∨ c = '\'' then (start, piece) :: serializedPieces fuel (i + 1) (i + 1) [] rest
    else if c ≠ '\\' then serializedPieces fuel start (i + 1) (piece ++ [c]) rest
    else
      let run := slashes (c :: rest)
      let after := pastSlashes (c :: rest)
      match separatorLength after with
      | some length => (start, piece) :: serializedPieces fuel (i + run.length + length)
            (i + run.length + length) [] (after.drop length)
      | none => serializedPieces fuel start (i + run.length) (piece ++ run) after

def splitSerializedPemLine (content : List Char) : List (Nat × List Char) :=
  serializedPieces (content.length + 1) 0 0 [] content

/-- Backslashes before a solidus are dropped, with `u002f` for one. -/
def unescapeSolidus : Nat → List Char → List Char
  | 0, text => text
  | _ + 1, [] => []
  | fuel + 1, c :: rest =>
    if c ≠ '\\' then c :: unescapeSolidus fuel rest
    else
      let after := pastSlashes (c :: rest)
      if after.head? = some '/' then '/' :: unescapeSolidus fuel after.tail
      else if after.take 5 = "u002f".toList ∨ after.take 5 = "u002F".toList then
        '/' :: unescapeSolidus fuel (after.drop 5)
      else slashes (c :: rest) ++ unescapeSolidus fuel after

def normalizeEscapedSolidus (text : List Char) : List Char := unescapeSolidus text.length text

/-- What follows the spaces, tabs and escaped tabs at the front. -/
def skipTabs : Nat → List Char → List Char
  | 0, text => text
  | _ + 1, [] => []
  | fuel + 1, c :: rest =>
    if isHorizontal c then skipTabs fuel rest
    else if c = '\\' ∧ (pastSlashes rest).head? = some 't' then skipTabs fuel (pastSlashes rest).tail
    else c :: rest

/-- The end of a piece, read backwards, without spaces, tabs, escaped tabs and backslashes. -/
def trimTabsBack : Nat → List Char → List Char
  | 0, text => text
  | _ + 1, [] => []
  | fuel + 1, c :: rest =>
    if isHorizontal c ∨ c = '\\' then trimTabsBack fuel rest
    else if c = 't' ∧ slashes rest ≠ [] then trimTabsBack fuel (pastSlashes rest)
    else c :: rest

/-- `_trim_pem_segment`: how much is dropped at the front, and what is left. -/
def trimPemSegment (piece : List Char) : Nat × List Char :=
  let front := skipTabs piece.length piece
  (piece.length - front.length, (trimTabsBack front.length front.reverse).reverse)

/-! ## Tokens -/

def hasThreeCapitals (run : Nat) : List Char → Bool
  | [] => false
  | c :: rest => if c.isUpper then (if 3 ≤ run + 1 then true else hasThreeCapitals (run + 1) rest)
        else hasThreeCapitals 0 rest

def looksLikeEnglishToken (token : List Char) : Bool :=
  if token = [] ∨ ¬ token.all Char.isAlpha then false
  else if token.all Char.isLower then true
  else if token.all Char.isUpper then false
  else !hasThreeCapitals 0 token

/-- A digit or a symbol of the alphabet. -/
def hasEvidence (token : List Char) : Bool := token.any fun c => c.isDigit || c = '+' || c = '/' || c = '='

/-- A token of key material. -/
def isBodyToken (token : List Char) : Bool := isBodyChars token && !looksLikeEnglishToken token

/-- The first token and what follows it: it ends at a space, a tab or an escaped tab. -/
def takeToken : Nat → List Char → List Char × List Char
  | 0, text => ([], text)
  | _ + 1, [] => ([], [])
  | fuel + 1, c :: rest =>
    if isHorizontal c then ([], c :: rest)
    else if c = '\\' then
      let after := pastSlashes rest
      if after.head? = some 't' then ([], c :: rest)
      else
        let (token, left) := takeToken fuel after
        (c :: slashes rest ++ token, left)
    else
      let (token, left) := takeToken fuel rest
      (c :: token, left)

structure BodyRun where
  sawBody : Bool
  haveEvidence : Bool
  runEnd : Nat
deriving DecidableEq, Repr

/-- The tokens of key material at the front; `total` is the length of the whole text. -/
def bodyRunFrom (total : Nat) : Nat → List Char → BodyRun → BodyRun
  | 0, _, run => run
  | fuel + 1, text, run =>
    let start := skipTabs text.length text
    let (token, left) := takeToken start.length start
    let body := normalizeEscapedSolidus token
    if token ≠ [] ∧ isBodyToken body then
      bodyRunFrom total fuel left ⟨true, run.haveEvidence || hasEvidence body, total - left.length⟩
    else run

def pemLeadingBodyRun (text : List Char) : BodyRun := bodyRunFrom text.length text.length text ⟨false, false, 0⟩

/-! ## The line model -/

inductive LineKind where
  | other | beginMarker | endMarker | strictB64 | shortB64 | endInline | armor | blank
  | endLoose | prefixedB64 | lenientB64
deriving DecidableEq, Repr

structure PemLine where
  kind : LineKind
  redactStart : Nat
  contentEnd : Nat
  lineStart : Nat
  /-- The end of the END marker, in lines that have one. -/
  markerEnd : Option Nat
deriving DecidableEq, Repr

/-- A body token's kind by its width. -/
def bodyKind (token : List Char) : LineKind := if 16 ≤ token.length then .strictB64 else .shortB64

/-- A line with a private key marker. -/
def classifyMarker (lineStart start : Nat) (stripped : List Char) : List PemLine :=
  let stop := start + stripped.length
  let begins := search beginRe [] stripped
  let ends := search endRe [] stripped
  let beginsAtEnd := begins.filter fun b => b.stop = stripped.length
  let opensInline := begins.filter fun b => (ends.all fun e => e.start < b.start) && isInlineSpan
    (stripped.drop b.stop) &&
    (search inlineRunRe [] (stripped.drop b.stop)).isSome
  match beginsAtEnd, opensInline, begins, ends with
  | some b, _, _, _ =>
    -- the body of the block before may stand in front of the marker
    let run := if ends.isNone then pemLeadingBodyRun (stripped.take b.start) else ⟨false, false, 0⟩
    if run.sawBody && run.haveEvidence then
      [⟨.strictB64, start, start + run.runEnd, start, none⟩,
        ⟨.beginMarker, start + b.start, stop, start + b.start, none⟩]
    else
      [⟨.beginMarker, start + b.start, stop, lineStart,
        (ends.filter fun e => e.stop ≤ b.start).map fun e => start + e.stop⟩]
  | none, some b, _, _ => [⟨.beginMarker, start + b.start, stop, lineStart, none⟩]
  | none, none, none, some e =>
    let kind : LineKind :=
      if e.start = 0 ∧ e.stop = stripped.length then .endMarker
      else if (stripped.drop e.stop).all fun c => c ∈ ['"', '\'', ')', ',', '.', ';', ':', ']', '}'] then .endInline
      else .endLoose
    [⟨kind, start, stop, lineStart, some (start + e.stop)⟩]
  | _, _, _, _ => [⟨.other, start, stop, lineStart, none⟩]

/-- The body of a truncated block in front of a marker that is no private key's. -/
def classifyGlued (start : Nat) (stripped : List Char) : Option (List PemLine) :=
  match search anyMarkerRe [] stripped with
  | none => none
  | some marker =>
    let front := stripped.take marker.start
    let quote := front.takeWhile fun c => c = '>' || c = '+' || c = '-' || isHorizontal c
    let run := pemLeadingBodyRun (front.drop quote.length)
    if 0 < marker.start ∧ run.sawBody ∧ run.haveEvidence then
      let bodyStart := start + quote.length
      some [⟨.strictB64, bodyStart, bodyStart + run.runEnd, bodyStart, none⟩,
        ⟨.other, bodyStart + run.runEnd, start + stripped.length, bodyStart + run.runEnd, none⟩]
    else none

/-- The kind of a line without a private key marker. -/
def plainKind (stripped : List Char) : LineKind :=
  let normalized := normalizeEscapedSolidus stripped
  if isBodyToken normalized then bodyKind normalized
  else if stripped = [] then .blank
  else if isArmorHeader stripped then .armor
  else
    match splitLast stripped with
    | some (head, last) => if (split head).length ≤ 6 ∧ 16 ≤ last.length ∧ isBodyToken last then
          .prefixedB64 else .other
    | none => .other

def classifySegment (lineStart : Nat) (content : List Char) : List PemLine :=
  let stripped := stripBy isHorizontal content
  -- content.find(stripped[:1])
  let start := lineStart + (content.takeWhile fun c => some c ≠ stripped.head?).length
  let start := if stripped = [] then lineStart else start
  if hasPrivateKey stripped then classifyMarker lineStart start stripped
  else (classifyGlued start stripped).getD [⟨plainKind stripped, start, start + stripped.length, lineStart, none⟩]

/-- The segments of one line, with their offsets in the text. -/
def lineSegments (offset : Nat) (raw : List Char) : List (Nat × List Char) :=
  let content := dropLineBreak raw
  if (search escapedSeparatorHintRe [] content).isSome then
    (splitSerializedPemLine content).map fun piece =>
      let (trimmed, text) := trimPemSegment piece.2
      (offset + piece.1 + trimmed, text)
  else [(offset, content)]

def modelLines (offset : Nat) : List (List Char) → List PemLine
  | [] => []
  | raw :: lines =>
    (lineSegments offset raw).flatMap (fun segment => classifySegment segment.1 segment.2) ++
      modelLines (offset + raw.length) lines

def pemLineModel (text : List Char) : List PemLine := modelLines 0 (splitlinesKeep text)

end Pem
