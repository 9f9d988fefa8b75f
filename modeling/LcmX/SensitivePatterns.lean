import LcmX.PayloadPlaceholder
import LcmX.PemScan

/-!
# Sensitive patterns

The catalog has three patterns for a secret behind its label, and the private key scanner.
A match keeps its text but for the secret, which is replaced by a placeholder.
-/
namespace Sensitive

open Regex PyText Ingest

/-! ## The catalog -/

inductive PatternName where
  | apiKey | bearerToken | passwordAssignment | privateKey
  deriving DecidableEq, Repr

def PatternName.text : PatternName → List Char
  | .apiKey => "api_key".toList
  | .bearerToken => "bearer_token".toList
  | .passwordAssignment => "password_assignment".toList
  | .privateKey => "private_key".toList

/-- The keys of the catalog in its order. -/
def catalogNames : List PatternName := [.apiKey, .bearerToken, .passwordAssignment, .privateKey]

/-- A pattern with its groups for the secret, in the order in which they are looked up. -/
structure SensitivePattern where
  re : Re
  secretGroups : List Nat

def isQuote (c : Char) : Bool := c = '"' || c = '\''

/-- `\\?["']?`. -/
def quoteRe : Re := .seq (opt (.char (· = '\\'))) (opt (.char isQuote))

def spacesRe : Re := star (.char isSpace)

def isAssignment (c : Char) : Bool := c = ':' || c = '='

/-- `[A-Za-z0-9._~+/=-]`. -/
def isSecretChar (c : Char) : Bool :=
  isAlnumIgnoringCase c || c = '.' || c = '_' || c = '~' || c = '+' || c = '/' || c = '=' || c = '-'

/-- `<first>[_-]?<second>`. -/
def joinedRe (first second : String) : Re :=
  .seq (litIgnoringCase first.toList) (.seq (opt (.char fun c => c = '_' || c = '-')) (litIgnoringCase second.toList))

def keyLabelRe : Re :=
  .or (joinedRe "api" "key") (.or (joinedRe "api" "token") (.or (joinedRe "access" "token")
    (.or (joinedRe "secret" "key") (joinedRe "client" "secret"))))

def passwordLabelRe : Re :=
  .or (litIgnoringCase "password".toList) (.or (litIgnoringCase "passwd".toList)
    (.or (litIgnoringCase "pwd".toList) (litIgnoringCase "passphrase".toList)))

section

/- What `\w` matches is given. -/
variable (isWord : Char → Bool)

/-- `\b`. -/
def boundaryRe : Re := .test fun behind ahead => behind.head?.any isWord != ahead.head?.any isWord

/-- `(?:\\?["']?)\b(?:<labels>)\b\s*(?:\\?["']?)\s*[:=]\s*(?:\\?["']?)`. -/
def keyPrefixRe : Re :=
  .seq quoteRe (.seq (boundaryRe isWord) (.seq keyLabelRe (.seq (boundaryRe isWord) (.seq spacesRe (.seq quoteRe
    (.seq spacesRe (.seq (.char isAssignment) (.seq spacesRe quoteRe))))))))

def apiKey : SensitivePattern where
  re := .seq (.group 1 (keyPrefixRe isWord)) (.seq (.group 2 (atLeast 12 (.char isSecretChar))) (.group 3 quoteRe))
  secretGroups := [2]

/-- `\bBearer\s+`. -/
def bearerPrefixRe : Re := .seq (boundaryRe isWord) (.seq (litIgnoringCase "Bearer".toList) (plus (.char isSpace)))

def bearerToken : SensitivePattern where
  re := .seq (.group 1 (bearerPrefixRe isWord)) (.group 2 (atLeast 12 (.char isSecretChar)))
  secretGroups := [2]

/-- `\b(?:password|passwd|pwd|passphrase)\b\s*["']?\s*[:=]\s*`. -/
def passwordPrefixRe : Re :=
  .seq (boundaryRe isWord) (.seq passwordLabelRe (.seq (boundaryRe isWord) (.seq spacesRe (.seq (opt (.char isQuote))
    (.seq spacesRe (.seq (.char isAssignment) spacesRe))))))

/-- `[^\r\n\]\}]`. -/
def isQuotedChar (c : Char) : Bool := c ≠ '\r' && c ≠ '\n' && c ≠ ']' && c ≠ '}'

/-- `[^\s,"'\]}]`. -/
def isUnquotedChar (c : Char) : Bool := !isSpace c && c ≠ ',' && !isQuote c && c ≠ ']' && c ≠ '}'

def passwordAssignment : SensitivePattern where
  re := .seq (.group 1 (passwordPrefixRe isWord)) (.or
    (.seq (.group 2 (.char isQuote)) (.seq (.group 3 (.rep true 6 none (.char isQuotedChar))) (.back 2)))
    (.group 4 (atLeast 6 (.char isUnquotedChar))))
  secretGroups := [3, 4]

/-- The regular expressions of the catalog; the private keys have their scanner. -/
def catalog : PatternName → Option SensitivePattern
  | .apiKey => some (apiKey isWord)
  | .bearerToken => some (bearerToken isWord)
  | .passwordAssignment => some (passwordAssignment isWord)
  | .privateKey => none

end

/-! ## The configured names -/

/-- The setting of the patterns. -/
inductive PatternSetting where
  | text (value : List Char)
  | list (values : List (List Char))

def splitCommas (text : List Char) : List (List Char) := text.splitOn ','

def PatternSetting.names : PatternSetting → List (List Char)
  | .text value => ((splitCommas value).map strip).filter (· ≠ [])
  | .list values => (values.map strip).filter (· ≠ [])

structure ConfiguredNames where
  configured : List (List Char)
  active : List PatternName
  unknown : List (List Char)
deriving DecidableEq, Repr

def addNew {α : Type} [DecidableEq α] (l : List α) (x : α) : List α := if x ∈ l then l else l ++ [x]

/-- One name of the setting. -/
def ConfiguredNames.add (n : ConfiguredNames) (name : List Char) : ConfiguredNames :=
  let normalized := strip (lower name)
  if normalized = "all".toList ∨ normalized = "default".toList then
    { n with configured := (catalogNames.map
      PatternName.text).foldl addNew n.configured, active := catalogNames.foldl addNew n.active }
  else
    match catalogNames.find? fun p => p.text = normalized with
    | some p => { n with configured := n.configured ++ [normalized], active := addNew n.active p }
    | none => { n with configured := n.configured ++ [normalized], unknown := addNew n.unknown normalized }

def configuredSensitivePatternNames (setting : PatternSetting) : ConfiguredNames :=
  setting.names.foldl ConfiguredNames.add ⟨[], [], []⟩

/-- `_private_key_first`. -/
def privateKeyFirst (names : List PatternName) : List PatternName :=
  names.filter (· = .privateKey) ++ names.filter (· ≠ .privateKey)

/-- `sorted(set(names))`: the catalog is in alphabetical order. -/
def sortedNames (names : List PatternName) : List PatternName := catalogNames.filter (· ∈ names)

/-! ## Replacing a secret -/

/-- The offsets of the secret in the text of a match. -/
def secretSpan (groups : List Nat) (m : Match) : Option (Nat × Nat) := groups.findSome? m.span

/-- `_redact_match`. -/
def redactMatch (groups : List Nat) (placeholder : List Char → List Char) (m : Match) : List Char :=
  match secretSpan groups m with
  | none => placeholder m.text
  | some (start, stop) => m.text.take start ++ placeholder (slice m.text start stop) ++ m.text.drop stop

/-- `_SENSITIVE_PATTERN_CATALOG[name].sub(..)`. -/
def SensitivePattern.redact (p : SensitivePattern) (placeholder : List Char → List Char)
    (text : List Char) : List Char :=
  sub p.re (redactMatch p.secretGroups placeholder) text

/-- `_apply_sensitive_pattern`: one pattern of the catalog, or the scanner. -/
def applySensitivePattern (isWord : Char → Bool) (name : PatternName)
    (placeholder : List Char → List Char) (text : List Char) :
    List Char :=
  match catalog isWord name with
  | some p => p.redact placeholder text
  | none => Pem.redactPrivateKeyBlocksWith text placeholder

/-! ## Parts of a text -/

/-- A character that stays, or a text that is replaced. -/
abbrev Part := Char ⊕ List Char

def partsText (ps : List Part) : List Char := ps.flatMap (pieceText id)

def redacted (placeholder : List Char → List Char) (ps : List Part) : List Char := ps.flatMap (pieceText placeholder)

/-- Characters that stay. -/
def kept (w : List Char) : List Part := w.map .inl

def matchParts (groups : List Nat) : Char ⊕ Match → List Part
  | .inl c => [.inl c]
  | .inr m =>
    match secretSpan groups m with
    | none => [.inr m.text]
    | some (start, stop) => kept (m.text.take start) ++ .inr (slice m.text start stop) :: kept (m.text.drop stop)

def SensitivePattern.parts (p : SensitivePattern) (text : List Char) : List Part :=
  (cut p.re text).flatMap (matchParts p.secretGroups)

/-- The text from a position on, cut at its spans. -/
def spanParts (text : List Char) : Nat → List (Nat × Nat) → List Part
  | cursor, [] => kept (text.drop cursor)
  | cursor, (start, stop) :: spans =>
    kept (slice text cursor start) ++ .inr (slice text start stop) :: spanParts text stop spans

def patternParts (isWord : Char → Bool) (name : PatternName) (text : List Char) : List Part :=
  match catalog isWord name with
  | some p => p.parts text
  | none => spanParts text 0 (Pem.privateKeySpans text)

section

variable {placeholder : List Char → List Char} {a b : List Part}

@[simp] theorem partsText_nil : partsText [] = [] := rfl

@[simp] theorem partsText_inl (c : Char) (ps : List Part) : partsText (.inl c :: ps) = c :: partsText ps := rfl

@[simp] theorem partsText_inr (w : List Char) (ps : List Part) : partsText (.inr w :: ps) = w ++ partsText ps := rfl

@[simp] theorem partsText_append : partsText (a ++ b) = partsText a ++ partsText b := by simp [partsText]

@[simp] theorem partsText_kept (w : List Char) : partsText (kept w) = w := by
  induction w with
  | nil => rfl
  | cons c w ih => exact congrArg (c :: ·) ih

@[simp] theorem redacted_nil : redacted placeholder [] = [] := rfl

@[simp] theorem redacted_inl (c : Char) (ps : List Part) :
    redacted placeholder (.inl c :: ps) = c :: redacted placeholder ps := rfl

@[simp] theorem redacted_inr (w : List Char) (ps : List Part) :
    redacted placeholder (.inr w :: ps) = placeholder w ++ redacted placeholder ps := rfl

@[simp] theorem redacted_append : redacted placeholder (a ++ b) = redacted placeholder a ++
    redacted placeholder b := by simp [redacted]

@[simp] theorem redacted_kept (w : List Char) : redacted placeholder (kept w) = w := by
  induction w with
  | nil => rfl
  | cons c w ih => exact congrArg (c :: ·) ih

@[simp] theorem kept_nil : kept [] = [] := rfl

@[simp] theorem kept_cons (c : Char) (w : List Char) : kept (c :: w) = .inl c :: kept w := rfl

@[simp] theorem kept_append (v w : List Char) : kept (v ++ w) = kept v ++ kept w := List.map_append

end

theorem redacted_matchParts (groups : List Nat) (placeholder : List Char → List Char) (piece : Char ⊕ Match) :
    redacted placeholder (matchParts groups piece) = pieceText (redactMatch groups placeholder) piece := by
  cases piece with
  | inl c => rfl
  | inr m =>
    rw [matchParts, pieceText, redactMatch]
    cases secretSpan groups m with
    | none => exact List.append_nil _
    | some span => simp

theorem redact_eq (p : SensitivePattern) (placeholder : List Char → List Char) (text : List Char) :
    p.redact placeholder text = redacted placeholder (p.parts text) := by
  rw [SensitivePattern.redact, sub, SensitivePattern.parts, redacted, List.flatMap_assoc]
  exact congrArg (List.flatMap · _) (funext fun piece => (redacted_matchParts _ _ piece).symm)

theorem replaceSpans_eq (text : List Char) (placeholder : List Char → List Char) (spans : List (Nat × Nat)) : ∀ cursor,
    Pem.replaceSpans text placeholder cursor spans = redacted placeholder (spanParts text cursor spans) := by
  induction spans with
  | nil => simp [Pem.replaceSpans, spanParts]
  | cons span spans ih =>
    intro cursor
    obtain ⟨start, stop⟩ := span
    rw [Pem.replaceSpans, spanParts, ih]
    simp

/-- A pattern keeps all of a text but for the parts that it replaces. -/
theorem applySensitivePattern_eq (isWord : Char → Bool) (name : PatternName)
    (placeholder : List Char → List Char) (text : List Char) :
    applySensitivePattern isWord name placeholder text = redacted placeholder (patternParts isWord name text) := by
  rw [applySensitivePattern, patternParts]
  cases catalog isWord name with
  | none => exact replaceSpans_eq text placeholder _ 0
  | some p => exact redact_eq p placeholder text

end Sensitive
