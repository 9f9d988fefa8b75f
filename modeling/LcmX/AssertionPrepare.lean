import LcmX.Lib.Fallible
import LcmX.Lib.Json
import LcmX.Lib.PyText
import Mathlib

/-!
# Preparing an assertion publication

Candidates become rows under ids that are digests of their canonical JSON. The digest and
the text of a floating-point number are arguments.
-/
namespace Assertion

abbrev Text := List Char

inductive Error where
  | value (message : String)
  | stale (message : String)
  | conflict (message : String)
  | integrity (message : String)
  deriving DecidableEq, Repr

/-- A floating-point number of a caller. -/
inductive Number where
  | finite (value : Rat)
  | notFinite
  deriving DecidableEq, Repr

structure Host where
  sha256 : Text → Text
  float : Rat → Json.Value

def assertionKinds : List Text :=
  ["fact", "event", "preference", "recommendation", "commitment", "action", "status", "quotation"].map String.toList

def assertionPolarities : List Text := ["positive", "negative", "unknown"].map String.toList

def assertionRelationTypes : List Text :=
  ["confirms", "supersedes", "contradicts", "narrows", "weakens", "reverses", "cancels", "fulfills",
    "quotes"].map String.toList

def maxCandidatesPerSource : Nat := 500
def maxKeyChars : Nat := 512
def maxValueTextChars : Nat := 16384
def maxObjectJsonChars : Nat := 32768
def maxVersionChars : Nat := 128

structure SourceSnapshot where
  storeId : Int
  sessionId : Text
  source : Text
  role : Text
  content : Text
  timestamp : Rat
  contentSha256 : Text
  deriving DecidableEq, Repr

/-- A candidate; an object that JSON does not have is `none`. -/
structure AssertionCandidate where
  sourceSpanStart : Int
  sourceSpanEnd : Int
  subjectKey : Text
  predicateKey : Text
  objectValue : Option Json.Value := some .null
  valueText : Text := []
  kind : Text := "fact".toList
  polarity : Text := "positive".toList
  strength : Option Number := none
  scopeKey : Text := []
  eventAt : Option Number := none
  validFrom : Option Number := none
  validTo : Option Number := none
  confidence : Option Number := some (.finite 1)

structure AssertionRelationCandidate where
  sourceSpanStart : Int
  sourceSpanEnd : Int
  fromAssertionId : Text
  relationType : Text
  toAssertionId : Text
  confidence : Option Number := some (.finite 1)

/-- The source, the version and the content hash that a row belongs to. -/
structure Key where
  storeId : Int
  version : Text
  contentSha256 : Text
  deriving DecidableEq, Repr

structure AssertionPayload where
  key : Key
  subjectKey : Text
  predicateKey : Text
  objectJson : Text
  valueText : Text
  kind : Text
  polarity : Text
  strength : Option Rat
  scopeKey : Text
  speakerRole : Text
  observedAt : Rat
  eventAt : Option Rat
  validFrom : Option Rat
  validTo : Option Rat
  sourceSpanStart : Int
  sourceSpanEnd : Int
  sourceQuote : Text
  confidence : Rat
  deriving DecidableEq, Repr

structure AssertionRow where
  assertionId : Text
  payload : AssertionPayload
  deriving DecidableEq, Repr

structure RelationPayload where
  key : Key
  fromAssertionId : Text
  relationType : Text
  toAssertionId : Text
  sourceSpanStart : Int
  sourceSpanEnd : Int
  sourceQuote : Text
  confidence : Rat
  deriving DecidableEq, Repr

structure RelationRow where
  relationId : Text
  payload : RelationPayload
  deriving DecidableEq, Repr

/-! ## Checks -/

def require (ok : Bool) (message : String) : Except Error Unit := if ok then .ok () else .error (.value message)

/-- `_canonical_json`. -/
def canonicalJson : Option Json.Value → Except Error Text
  | none => .error (.value "assertion object_value must be finite JSON")
  | some value => do
    let encoded := Json.dumps Json.compact value
    require (encoded.length ≤ maxObjectJsonChars) s!"assertion object_value exceeds {maxObjectJsonChars} characters"
    pure encoded

/-- `_validated_text`. -/
def validatedText (value : Text) (field : String) (allowEmpty : Bool) : Except Error Text := do
  let text := PyText.strip value
  require (text ≠ [] ∨ allowEmpty) s!"{field} must not be empty"
  require (text.length ≤ maxKeyChars) s!"{field} exceeds {maxKeyChars} characters"
  pure text

/-- `_validated_version`. -/
def validatedVersion (version : Text) : Except Error Text := do
  let normalized := PyText.strip version
  require (normalized ≠ []) "extraction_version must not be empty"
  require (normalized.length ≤ maxVersionChars) s!"extraction_version exceeds {maxVersionChars} characters"
  pure normalized

/-- `_finite_number`. -/
def finiteNumber (value : Option Number) (field : String) : Except Error (Option Rat) :=
  match value with
  | none => .ok none
  | some (.finite q) => .ok (some q)
  | some .notFinite => .error (.value s!"{field} must be finite")

/-- `_bounded_probability`. -/
def boundedProbability (value : Option Number) (field : String) : Except Error (Option Rat) := do
  let result ← finiteNumber value field
  require (result.all fun q => 0 ≤ q ∧ q ≤ 1) s!"{field} must be between 0 and 1"
  pure result

def notNull (value : Option Rat) (message : String) : Except Error Rat :=
  match value with
  | none => .error (.value message)
  | some q => .ok q

/-- `_is_sha256_hex`. -/
def isSha256Hex (value : Text) : Bool :=
  value.length = 64 ∧ (PyText.lower value).all fun c => "0123456789abcdef".toList.contains c

/-! ## Rows -/

section

variable (host : Host)

def floatOrNull (value : Option Rat) : Json.Value := (value.map host.float).getD .null

def text (value : Text) : Json.Value := .str (String.ofList value)

def Key.members (key : Key) : List (String × Json.Value) :=
  [("source_store_id", .int key.storeId), ("extraction_version", text key.version),
    ("source_content_sha256", text key.contentSha256)]

def AssertionPayload.members (payload : AssertionPayload) : List (String × Json.Value) :=
  payload.key.members ++
    [("subject_key", text payload.subjectKey), ("predicate_key", text payload.predicateKey),
      ("object_json", text payload.objectJson),
      ("value_text", text payload.valueText), ("kind", text payload.kind), ("polarity", text payload.polarity),
      ("strength", floatOrNull host payload.strength), ("scope_key", text payload.scopeKey),
        ("speaker_role", text payload.speakerRole),
      ("observed_at", host.float payload.observedAt), ("event_at", floatOrNull host payload.eventAt),
      ("valid_from", floatOrNull host payload.validFrom), ("valid_to", floatOrNull host payload.validTo),
      ("source_span_start", .int payload.sourceSpanStart), ("source_span_end", .int payload.sourceSpanEnd),
      ("source_quote", text payload.sourceQuote), ("confidence", host.float payload.confidence)]

def AssertionRow.json (row : AssertionRow) : Json.Value :=
  .obj (row.payload.members host ++ [("assertion_id", text row.assertionId)])

def RelationPayload.members (payload : RelationPayload) : List (String × Json.Value) :=
  payload.key.members ++
    [("from_assertion_id", text payload.fromAssertionId),
      ("relation_type", text payload.relationType), ("to_assertion_id", text payload.toAssertionId),
      ("source_span_start", .int payload.sourceSpanStart), ("source_span_end", .int payload.sourceSpanEnd),
      ("source_quote", text payload.sourceQuote), ("confidence", host.float payload.confidence)]

def RelationRow.json (row : RelationRow) : Json.Value :=
  .obj (row.payload.members host ++ [("relation_id", text row.relationId)])

def SourceSnapshot.key (snapshot : SourceSnapshot) (version : Text) : Key :=
  ⟨snapshot.storeId, version, snapshot.contentSha256⟩

/-- The dictionary that `_prepare_assertion` takes the id of. -/
def assertionPayload (snapshot : SourceSnapshot) (candidate : AssertionCandidate) (version : Text) :
    Except Error AssertionPayload := do
  let start := candidate.sourceSpanStart
  let stop := candidate.sourceSpanEnd
  require (0 ≤ start ∧ start < stop ∧ stop ≤ snapshot.content.length)
    s!"invalid source span [{start}, {stop}) for {snapshot.content.length} characters"
  let subject ← validatedText candidate.subjectKey "subject_key" false
  let predicate ← validatedText candidate.predicateKey "predicate_key" false
  let kind := PyText.lower (PyText.strip candidate.kind)
  require (kind ∈ assertionKinds) s!"unsupported assertion kind: {String.ofList kind}"
  let polarity := PyText.lower (PyText.strip candidate.polarity)
  require (polarity ∈ assertionPolarities) s!"unsupported assertion polarity: {String.ofList polarity}"
  require (candidate.valueText.length ≤ maxValueTextChars) s!"value_text exceeds {maxValueTextChars} characters"
  let scopeKey ← validatedText candidate.scopeKey "scope_key" true
  let strength ← boundedProbability candidate.strength "strength"
  let confidence ← boundedProbability candidate.confidence "confidence"
  let confidence ← notNull confidence "confidence must not be null"
  let eventAt ← finiteNumber candidate.eventAt "event_at"
  let validFrom ← finiteNumber candidate.validFrom "valid_from"
  let validTo ← finiteNumber candidate.validTo "valid_to"
  require (validFrom.all fun a => validTo.all fun b => a < b) "valid_to must be greater than valid_from"
  let objectJson ← canonicalJson candidate.objectValue
  pure {
    key := snapshot.key version
    subjectKey := subject
    predicateKey := predicate
    objectJson := objectJson
    valueText := candidate.valueText
    kind := kind
    polarity := polarity
    strength := strength
    scopeKey := scopeKey
    speakerRole := snapshot.role
    observedAt := snapshot.timestamp
    eventAt := eventAt
    validFrom := validFrom
    validTo := validTo
    sourceSpanStart := start
    sourceSpanEnd := stop
    sourceQuote := PyText.slice snapshot.content start.toNat stop.toNat
    confidence := confidence }

/-- `_prepare_assertion`. -/
def prepareAssertion (snapshot : SourceSnapshot) (version : Text) (candidate : AssertionCandidate) :
    Except Error AssertionRow := do
  let payload ← assertionPayload snapshot candidate version
  let encoded ← canonicalJson (some (.obj (payload.members host)))
  pure ⟨host.sha256 encoded, payload⟩

/-- The dictionary that `_prepare_relation` takes the id of. -/
def relationPayload (snapshot : SourceSnapshot) (candidate : AssertionRelationCandidate)
    (version : Text) : Except Error RelationPayload := do
  let start := candidate.sourceSpanStart
  let stop := candidate.sourceSpanEnd
  require (0 ≤ start ∧ start < stop ∧ stop ≤ snapshot.content.length)
    s!"invalid relation source span [{start}, {stop}) for {snapshot.content.length} characters"
  let relationType := PyText.lower (PyText.strip candidate.relationType)
  require (relationType ∈ assertionRelationTypes) s!"unsupported assertion relation: {String.ofList relationType}"
  let fromId := PyText.lower (PyText.strip candidate.fromAssertionId)
  let toId := PyText.lower (PyText.strip candidate.toAssertionId)
  require (isSha256Hex fromId ∧ isSha256Hex toId) "relation assertion IDs must be 64-character SHA-256 hex"
  require (fromId ≠ toId) "an assertion relation cannot point to itself"
  let confidence ← boundedProbability candidate.confidence "confidence"
  let confidence ← notNull confidence "confidence must not be null"
  pure ⟨snapshot.key version, fromId, relationType, toId, start, stop,
    PyText.slice snapshot.content start.toNat stop.toNat, confidence⟩

/-- `_prepare_relation`. -/
def prepareRelation (snapshot : SourceSnapshot) (version : Text)
    (candidate : AssertionRelationCandidate) : Except Error RelationRow := do
  let payload ← relationPayload snapshot candidate version
  let encoded ← canonicalJson (some (.obj (payload.members host)))
  pure ⟨host.sha256 encoded, payload⟩

/-- What a publication has worked out before its transaction. -/
structure Prepared where
  version : Text
  assertions : List AssertionRow
  relations : List RelationRow
  candidateDigest : Text

/-- The first part of `publish_source`. -/
def prepare (snapshot : SourceSnapshot) (candidates : List AssertionCandidate)
    (relations : List AssertionRelationCandidate)
    (extractionVersion : Text) : Except Error Prepared := do
  let version ← validatedVersion extractionVersion
  require (candidates.length ≤ maxCandidatesPerSource)
    s!"at most {maxCandidatesPerSource} assertions may be published per source"
  require (relations.length ≤ maxCandidatesPerSource)
    s!"at most {maxCandidatesPerSource} relations may be published per source"
  let assertionRows ← candidates.mapM (prepareAssertion host snapshot version)
  let relationRows ← relations.mapM (prepareRelation host snapshot version)
  let assertionRows := assertionRows.insertionSort fun a b => a.assertionId ≤ b.assertionId
  let relationRows := relationRows.insertionSort fun a b => a.relationId ≤ b.relationId
  require ((assertionRows.map AssertionRow.assertionId).Nodup) "duplicate assertion candidates are not allowed"
  require ((relationRows.map RelationRow.relationId).Nodup) "duplicate assertion relations are not allowed"
  let encoded ← canonicalJson (some (.obj [("assertions", .arr (assertionRows.map (AssertionRow.json host))),
    ("relations", .arr (relationRows.map (RelationRow.json host)))]))
  pure ⟨version, assertionRows, relationRows, host.sha256 encoded⟩

end

/-! ## The key of the rows -/

/-- What holds after the last part of a sequence holds after the sequence. -/
theorem ok_of_bind {ε α β : Type} {x : Except ε α} {f : α → Except ε β} {P : β → Prop} (h : ∀ a b, f a = .ok b → P b) :
    ∀ b, (x >>= f) = .ok b → P b := by
  intro b hb
  obtain ⟨a, -, hf⟩ := Fallible.bind_ok.mp hb
  exact h a b hf

theorem ok_of_pure {ε β : Type} {r : β} {P : β → Prop} (h : P r) : ∀ b, (pure r : Except ε β) = .ok b → P b := by
  intro b hb
  obtain rfl := Except.ok.inj hb
  exact h

theorem assertionPayload_key (snapshot : SourceSnapshot) (candidate : AssertionCandidate) (version : Text) :
    ∀ payload, assertionPayload snapshot candidate version = .ok payload → payload.key = snapshot.key version := by
  rw [assertionPayload]
  repeat' (refine ok_of_bind fun _ => ?_)
  exact ok_of_pure rfl

theorem relationPayload_key (snapshot : SourceSnapshot) (candidate : AssertionRelationCandidate) (version : Text) :
    ∀ payload, relationPayload snapshot candidate version = .ok payload → payload.key = snapshot.key version := by
  rw [relationPayload]
  repeat' (refine ok_of_bind fun _ => ?_)
  exact ok_of_pure rfl

variable {host : Host} {snapshot : SourceSnapshot}

theorem prepareAssertion_key {version : Text} {candidate : AssertionCandidate} {row : AssertionRow}
    (h : prepareAssertion host snapshot version candidate = .ok row) : row.payload.key = snapshot.key version := by
  rw [prepareAssertion] at h
  obtain ⟨payload, hpayload, h⟩ := Fallible.bind_ok.mp h
  obtain ⟨encoded, -, h⟩ := Fallible.bind_ok.mp h
  obtain rfl := Except.ok.inj h
  exact assertionPayload_key _ _ _ payload hpayload

theorem prepareRelation_key {version : Text} {candidate : AssertionRelationCandidate} {row : RelationRow}
    (h : prepareRelation host snapshot version candidate = .ok row) : row.payload.key = snapshot.key version := by
  rw [prepareRelation] at h
  obtain ⟨payload, hpayload, h⟩ := Fallible.bind_ok.mp h
  obtain ⟨encoded, -, h⟩ := Fallible.bind_ok.mp h
  obtain rfl := Except.ok.inj h
  exact relationPayload_key _ _ _ payload hpayload

/-- Every row of a publication belongs to its source, version and content hash. -/
theorem prepare_keys {candidates : List AssertionCandidate} {relations : List AssertionRelationCandidate}
    {extractionVersion : Text} {p : Prepared}
    (h : prepare host snapshot candidates relations extractionVersion = .ok p) :
    (∀ row ∈ p.assertions, row.payload.key = snapshot.key p.version) ∧ ∀ row ∈ p.relations,
      row.payload.key = snapshot.key p.version := by
  rw [prepare] at h
  obtain ⟨version, -, h⟩ := Fallible.bind_ok.mp h
  obtain ⟨-, -, h⟩ := Fallible.bind_ok.mp h
  obtain ⟨-, -, h⟩ := Fallible.bind_ok.mp h
  obtain ⟨assertions, hassertions, h⟩ := Fallible.bind_ok.mp h
  obtain ⟨rels, hrelations, h⟩ := Fallible.bind_ok.mp h
  obtain ⟨-, -, h⟩ := Fallible.bind_ok.mp h
  obtain ⟨-, -, h⟩ := Fallible.bind_ok.mp h
  obtain ⟨encoded, -, h⟩ := Fallible.bind_ok.mp h
  obtain rfl := Except.ok.inj h
  refine ⟨fun row hrow => ?_, fun row hrow => ?_⟩
  · obtain ⟨candidate, -, hc⟩ := Fallible.mapM_mem hassertions ((List.perm_insertionSort _ _).subset hrow)
    exact prepareAssertion_key hc
  · obtain ⟨candidate, -, hc⟩ := Fallible.mapM_mem hrelations ((List.perm_insertionSort _ _).subset hrow)
    exact prepareRelation_key hc

end Assertion
