import LcmX.Lib.Regex
import LcmX.Lib.PyText
import Mathlib

/-!
# Search queries for the index

A query is reduced to terms and quoted phrases. The default reading lowers the operator
words outside of phrases; the reading for agents keeps infix operators and term prefixes.
-/
namespace SearchQuery

open Regex PyText

attribute [local instance] PyText.lawfulBEq_text

abbrev Text := List Char

/-- What Python's Unicode tables decide: the composed form, `str.isalnum` and the mark categories. -/
structure Unicode where
  nfc : Text → Text
  isAlnum : Char → Bool
  isMark : Char → Bool

def quoteMark : Char := Char.ofNat 0x22

/-- `_QUOTED_PHRASE_RE`. -/
def quotedPhraseRe : Re := .seq (.char (· = quoteMark))
    (.seq (.group 1 (plus (.char (· ≠ quoteMark)))) (.char (· = quoteMark)))

/-- `_BOOLEAN_OPERATORS`. -/
def booleanOperators : List Text := [['A', 'N', 'D'], ['O', 'R'], ['N', 'O', 'T'], ['N', 'E', 'A', 'R']]

/-- `_fts5_safe_char`. -/
def fts5SafeChar (u : Unicode) (c : Char) : Char := if u.isAlnum c || isSpace c then c
    else if u.isMark c then c else ' '

/-! ## The walk outside of phrases -/

structure Walk where
  result : Text
  quoteBuffer : Text
  inQuote : Bool

def Walk.step (replace : Char → Char) (w : Walk) (c : Char) : Walk :=
  if c = quoteMark then
    if w.inQuote then ⟨w.result ++ quoteMark :: (w.quoteBuffer ++ [quoteMark]), [], false⟩
    else ⟨w.result ++ (if w.result.getLast?.any fun last => !isSpace last then [' '] else []), [], true⟩
  else if w.inQuote then { w with quoteBuffer := w.quoteBuffer ++ [c] }
  else { w with result := w.result ++ [replace c] }

/-- The text after the walk: a quote that is not closed is walked like the rest. -/
def Walk.text (replace : Char → Char) (w : Walk) : Text :=
  if w.inQuote ∧ w.quoteBuffer ≠ [] then w.result ++ w.quoteBuffer.map replace else w.result

/-- `_sanitize_query`. -/
def sanitizeQuery (query : Text) (replace : Char → Char) : Text :=
  if query = [] then [] else [' '].intercalate (split ((query.foldl (Walk.step replace) ⟨[], [], false⟩).text replace))

/-! ## The default reading -/

def lowerOperator (token : Text) : Text := if token ∈ booleanOperators then lower token else token

/-- `_lower_operator_tokens`. -/
def lowerOperatorTokens (text : Text) : Text := [' '].intercalate ((text.splitOn ' ').map lowerOperator)

/-- The texts between the phrases are collected and lowered, the phrases stay. -/
def neutralizePieces (between : Text) : List (Char ⊕ Match) → Text
  | [] => lowerOperatorTokens between
  | .inl c :: rest => neutralizePieces (between ++ [c]) rest
  | .inr m :: rest => lowerOperatorTokens between ++ (m.text ++ neutralizePieces [] rest)

/-- `_neutralize_bare_operators`. -/
def neutralizeBareOperators (sanitized : Text) : Text := neutralizePieces [] (cut quotedPhraseRe sanitized)

/-! ## The reading for agents -/

/-- The pattern of a phrase, which may be empty, or a run without spaces and quotes. -/
def agentTokenRe : Re :=
  .or (.seq (.char (· = quoteMark)) (.seq (star (.char (· ≠ quoteMark))) (.char (· = quoteMark))))
    (plus (.char fun c => !isSpace c && c ≠ quoteMark))

def agentSafeChar (u : Unicode) (c : Char) : Char := if c = '*' then c else fts5SafeChar u c

/-- The tokens that one match leaves. -/
def agentTokens (u : Unicode) (token : Text) : List Text :=
  let stem := token.dropLast
  if token.head? = some quoteMark then [token]
  else if token.getLast? = some '*' ∧ token.count '*' = 1 ∧ 2 ≤ stem.countP u.isAlnum then [lowerOperator stem ++ ['*']]
  else split (token.map fun c => if c = '*' then ' ' else c)

def infixOperators : List Text := [['O', 'R'], ['N', 'O', 'T']]

def lowerPrefixOperator (token : Text) : Text :=
  if token ∈ [['A', 'N', 'D'], ['N', 'E', 'A', 'R']] then lower token else token

/-- The tokens that are kept, with the one before them: an operator stands between two others that are none. -/
def keepInfix : Option Text → List Text → List Text
  | _, [] => []
  | before, token :: rest =>
    if token ∉ infixOperators ∨ (before.any (· ∉ infixOperators) ∧ rest.head?.any (· ∉ infixOperators)) then
      lowerPrefixOperator token :: keepInfix (some token) rest
    else keepInfix (some token) rest

/-- Whether the query is read as prose: a quote is left open, or a parenthesis stands outside of the phrases. -/
def readsAsProse (query : Text) : Bool :=
  let outside := sub quotedPhraseRe (fun _ => [' ']) query
  query.count quoteMark % 2 = 1 ∨ '(' ∈ outside ∨ ')' ∈ outside

/-- `_sanitize_agent_fts5_query`. -/
def sanitizeAgentFts5Query (u : Unicode) (query neutral : Text) : Text :=
  if readsAsProse query then neutralizeBareOperators neutral
  else
    let safe := sanitizeQuery query (agentSafeChar u)
    let tokens := ((finditer agentTokenRe safe).map Match.text).flatMap (agentTokens u)
    let sanitized := [' '].intercalate (keepInfix none tokens)
    if sanitized = [] then neutralizeBareOperators neutral else sanitized

/-- `sanitize_fts5_query`. -/
def sanitizeFts5Query (u : Unicode) (query : Text) (allowOperators agentOperators : Bool) : Text :=
  let composed := u.nfc query
  let sanitized := sanitizeQuery composed (fts5SafeChar u)
  if agentOperators then sanitizeAgentFts5Query u composed sanitized
  else if allowOperators then sanitized
  else neutralizeBareOperators sanitized

end SearchQuery
