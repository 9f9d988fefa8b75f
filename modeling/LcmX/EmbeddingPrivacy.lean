import LcmX.SensitivePatterns

/-!
# Embedding privacy

A text that leaves for a cloud provider has its old placeholders written anew and its
secrets replaced. Before the call, the text is checked once more: its placeholders
are all in their one form, and no pattern finds anything in it.
-/
namespace EmbeddingPrivacy

open Regex PyText Ingest Sensitive

/-! ## Placeholders -/

/-- `[a-z0-9_-]`, ignoring the case. -/
def isNameChar (c : Char) : Bool := isAlnumIgnoringCase c || c = '_' || c = '-'

/-- `\[LCM (?:sensitive redaction|embedding privacy):\s*name=`. -/
def headerRe : Re :=
  .seq (litIgnoringCase "[LCM ".toList) (.seq (.or (litIgnoringCase "sensitive redaction".toList)
    (litIgnoringCase "embedding privacy".toList)) (.seq (litIgnoringCase ":".toList) (.seq (star (.char isSpace))
    (litIgnoringCase "name=".toList))))

/-- `_EMBEDDING_PRIVACY_PLACEHOLDER_RE`. -/
def placeholderRe : Re :=
  .seq headerRe (.seq (.group 1 (plus (.char isNameChar))) (.seq (star (.char (· ≠ ']'))) (.char (· = ']'))))

/-- `_embedding_privacy_placeholder`. -/
def embeddingPlaceholder (name : List Char) : List Char :=
  "[LCM embedding privacy:".toList ++ " name=".toList ++ placeholderMetadata name ++ [']']

/-- What a placeholder is replaced by. -/
def canonicalMatch (m : Match) : List Char := embeddingPlaceholder (lower (strip ((m.group 1).getD "unknown".toList)))

/-- `_canonicalize_embedding_privacy_placeholders`. -/
def canonicalizePlaceholders (text : List Char) : List Char := sub placeholderRe canonicalMatch text

/-! ## The policy -/

/-- The settings that the policy reads; privacy is off when it is set to false. -/
structure Config where
  embeddingPrivacyEnabled : Option Bool
  sensitivePatterns : PatternSetting

/-- What is given: the class `\w`, the digest of names, and the detectors that look for key material
without a marker. -/
structure Host where
  isWord : Char → Bool
  digest : List Char → String
  hasOrphanedPrivateKeyBody : List Char → Bool
  pemMarkerWithInlineBody : List Char → Bool
  hasOrphanFullWidthBase64Run : List Char → Bool
  pemFragmentNearPrivateKeyPlaceholder : List Char → Bool

def privacyOff : String := "privacy:off"

def joinNames (separator : String) (names : List (List Char)) : List Char := separator.toList.intercalate names

/-- `embedding_privacy_revision`. -/
def embeddingPrivacyRevision (h : Host) (c : Config) : Except String String :=
  if c.embeddingPrivacyEnabled = some false then .ok privacyOff
  else
    let names := configuredSensitivePatternNames c.sensitivePatterns
    if names.configured = [] ∨ names.active = [] then
      .error "cloud embedding privacy requires a nonempty sensitive-pattern policy"
    else if names.unknown ≠ [] then
      .error ("cloud embedding privacy policy contains unknown pattern names: " ++
        String.ofList (joinNames ", " (names.unknown.mergeSort fun a b => String.ofList a ≤ String.ofList b)))
    else .ok ("privacy:v3:" ++ h.digest (joinNames "\n" ((sortedNames names.active).map PatternName.text)))

section

variable (h : Host)

/-- `_embedding_privacy_residual_patterns`. -/
def residualPatterns (text : List Char) (active : List PatternName) : List PatternName :=
  active.filter fun name =>
    match catalog h.isWord name with
    | some p => (search p.re [] text).isSome
    | none =>
      let normalized := Pem.normalizeEscapedSolidus text
      (Pem.redactPrivateKeyBlocksWith text fun _ => embeddingPlaceholder PatternName.privateKey.text) ≠ text ||
        h.hasOrphanedPrivateKeyBody text || h.pemMarkerWithInlineBody text || h.pemMarkerWithInlineBody normalized ||
        h.hasOrphanFullWidthBase64Run text || h.hasOrphanFullWidthBase64Run normalized ||
        h.pemFragmentNearPrivateKeyPlaceholder text || h.pemFragmentNearPrivateKeyPlaceholder normalized

def residualError (residual : List PatternName) : String :=
  "cloud embedding privacy residual detector blocked pattern names: " ++
    String.ofList (joinNames ", " ((sortedNames residual).map PatternName.text))

/-- One pattern on the text for the provider. -/
def protectPattern (text : List Char) (name : PatternName) : List Char :=
  applySensitivePattern h.isWord name (fun _ => embeddingPlaceholder name.text) text

/-- The names in the order in which they run. -/
def passOrder (active : List PatternName) : List PatternName := privateKeyFirst (sortedNames active)

/-- `protect_embedding_text`. -/
def protectEmbeddingText (c : Config) (expected : Option String) (text : List Char) :
    Except String (List Char × String × Bool) := do
  let revision ← embeddingPrivacyRevision h c
  if expected.any (revision ≠ ·) then
    .error
      "cloud embedding privacy policy differs from registered vector identity; run `/lcm embed warmup` before dispatch"
  else if revision = privacyOff then .ok (text, revision, false)
  else
    let active := (configuredSensitivePatternNames c.sensitivePatterns).active
    let protectedText := (passOrder active).foldl (protectPattern h) (canonicalizePlaceholders text)
    let residual := residualPatterns h protectedText active
    if residual ≠ [] then .error (residualError residual) else .ok (protectedText, revision, protectedText ≠ text)

/-- The check of one text. -/
def dispatchError (active : List PatternName) (text : List Char) : Option String :=
  if canonicalizePlaceholders text ≠ text then
    some "cloud embedding dispatch contains a noncanonical privacy placeholder"
  else
    let residual := residualPatterns h text active
    if residual ≠ [] then some (residualError residual) else none

/-- `validate_embedding_privacy_dispatch`. -/
def validateDispatch (c : Config) (expected : String) (texts : List (List Char)) : Except String String := do
  let revision ← embeddingPrivacyRevision h c
  if revision ≠ expected then .error "cloud embedding privacy policy changed before provider dispatch"
  else if revision = privacyOff then .ok revision
  else
    match texts.findSome? (dispatchError h (configuredSensitivePatternNames c.sensitivePatterns).active) with
    | some message => .error message
    | none => .ok revision

end

end EmbeddingPrivacy
