import LcmX.ReplaySnapshot

/-!
# Emission descriptors

The engine emits rows whose content starts with a text that it generated: a
summary, a carrier, an objective or a recovery notice. The writer records for each
of them a descriptor that names no text, only digests, lengths and ordinals. The
reader finds the generated span of a row again from such descriptors.
-/
namespace Emission

open PyText Reconcile

/-- The content of a message: a text, or a value that has a text of its own. -/
inductive Content where
  | text (s : String)
  | other (normalized : String)
deriving DecidableEq, Repr

/-- `normalize_content_value(content) or ""`. -/
def Content.normalized : Content → String
  | .text s => s
  | .other s => s

def Content.text? : Content → Option String
  | .text s => some s
  | .other _ => none

/-- A message; an absent field is empty. -/
structure Message where
  /-- Two rows are the same object. -/
  object : Nat
  role : String
  content : Content
  toolCalls : List Json.Value
  toolCallId : String
  toolName : String
  name : String
  messageUid : Option String
deriving Repr

def Message.roleText (m : Message) : String := if m.role = "" then "unknown" else m.role

def Message.isPlain (m : Message) : Bool := m.toolCalls.isEmpty && m.toolCallId = ""

/-- `_emission_identity` with a content of its own. -/
def identityWith (m : Message) (content : String) : ReplayIdentity where
  role := m.roleText
  content := content
  toolCallId := m.toolCallId
  toolCalls := String.ofList (Json.dumps Json.compact (.arr m.toolCalls))
  toolName := if m.roleText = "tool" then (if m.toolName = "" then m.name else m.toolName) else ""

def emissionIdentity (m : Message) : ReplayIdentity := identityWith m m.content.normalized

inductive EmissionKind where
  | summary | carrier | objective | recovery
deriving DecidableEq, Repr

variable {S : Type}

/-- A row that the assembly wants to bind; `none` stands for a value of another type. -/
structure Candidate (S : Type) where
  kind : Option EmissionKind
  span : Option String
  fullIdentity : Option ReplayIdentity
  row : Option Nat
  retainedSource : Option S
  engineUid : Option String

/-- The session that a descriptor belongs to. -/
structure Binding where
  hermesHome : String
  sessionId : String
  conversationId : String
  resetEpoch : Int
deriving DecidableEq, Repr

structure MergeBase where
  sha256 : String
  bytes : Nat
deriving DecidableEq, Repr

structure Descriptor (S : Type) where
  kind : EmissionKind
  role : String
  samePrefixOrdinal : Nat
  outputIndex : Nat
  sameIdentityOrdinal : Nat
  /-- The length of the output, in descriptors that record it. -/
  outputOf : Option Nat
  generatedSpanSha256 : String
  generatedSpanBytes : Nat
  suffixSha256 : String
  suffixLength : Nat
  retainedSource : Option S
  scope : Binding
  engineUid : Option String
  mergeBase : Option MergeBase
  outputMultiplicity : Option Nat

/-- `_emission_candidate_rows`: the rows without tool calls whose text passes a test, with their positions. -/
def emissionCandidateRows (messages : List Message) (role : Option String)
    (accepts : String → Bool) : List (Message × Nat) :=
  messages.zipIdx.filter fun p => p.1.isPlain && some p.1.roleText = role && p.1.content.text?.any accepts

def startsWith (span content : String) : Bool := span.toList.isPrefixOf content.toList

section

variable (sha256 : List UInt8 → String)

/-- The first bytes of a content have a digest. -/
def startsWithDigest (length : Nat) (digest : String) (content : String) : Bool :=
  let raw := encode content.toList
  length ≤ raw.length ∧ sha256 (raw.take length) = digest

/-! ## The writer -/

/-- The rows that a candidate may be bound to: the row object itself, else those of its identity. -/
def boundRows (messages : List Message) (candidate : Candidate S) (searchFrom : Nat)
    (span : String) : List (Message × Nat) :=
  let rows := emissionCandidateRows messages (candidate.fullIdentity.map ReplayIdentity.role) (startsWith span)
  let remaining := rows.filter fun p => searchFrom ≤ p.2
  let same := remaining.filter fun p => candidate.row = some p.1.object
  if same.isEmpty then remaining.filter fun p => candidate.fullIdentity = some (emissionIdentity p.1) else same

/-- The text behind the span that a descriptor keeps a digest of. -/
def recordedSuffix (kind : EmissionKind) (retainedSource : Option S) (suffix : List Char) : List UInt8 :=
  if (kind = .summary ∨ kind = .objective) ∧ retainedSource.isNone then [] else encode (strip suffix)

/-- The user row before a recovery notice, that the host may merge with it. -/
def mergeBase (messages : List Message) (kind : EmissionKind) (index : Nat) : Option MergeBase :=
  if kind = .recovery ∧ 0 < index then
    match messages[index - 1]? with
    | some previous =>
      match previous.content with
      | .text content =>
        if previous.role = "user" ∧ previous.isPlain then
          let base := encode (strip content.toList)
          some ⟨sha256 base, base.length⟩
        else none
      | .other _ => none
    | none => none
  else none

/-- The descriptor of a candidate at the row it is bound to. -/
def describe (messages : List Message) (candidate : Candidate S) (scope : Binding) (kind : EmissionKind) (span : String)
    (message : Message) (content : String) (index : Nat) : Descriptor S :=
  let spanBytes := encode span.toList
  let suffix := recordedSuffix kind candidate.retainedSource (content.toList.drop span.toList.length)
  let rows := emissionCandidateRows messages (candidate.fullIdentity.map ReplayIdentity.role) (startsWith span)
  { kind := kind
    role := message.roleText
    samePrefixOrdinal := (rows.map Prod.snd).idxOf index
    outputIndex := index
    sameIdentityOrdinal :=
      ((messages.take (index + 1)).countP fun m => emissionIdentity m = emissionIdentity message) - 1
    outputOf := some messages.length
    generatedSpanSha256 := sha256 spanBytes
    generatedSpanBytes := spanBytes.length
    suffixSha256 := sha256 suffix
    suffixLength := suffix.length
    retainedSource := candidate.retainedSource
    scope := scope
    engineUid := if candidate.engineUid.isSome ∧ message.messageUid = candidate.engineUid then
      message.messageUid else none
    mergeBase := mergeBase sha256 messages kind index
    outputMultiplicity := none }

/-- One candidate of `_finalize_emission_descriptors`. -/
def bindCandidate (messages : List Message) (scope : Binding) (searchFrom : Nat) (candidate : Candidate S) :
    Option (Descriptor S) :=
  match candidate.kind, candidate.span with
  | some kind, some span =>
    if span = "" then none
    else
      match boundRows messages candidate searchFrom span with
      | [(message, index)] =>
        match message.content with
        | .text content =>
          if startsWith span content ∧ message.isPlain ∧ (candidate.fullIdentity.isNone ∨
              candidate.fullIdentity = some (emissionIdentity message) ∨ candidate.row = some message.object) then
            some (describe sha256 messages candidate scope kind span message content index)
          else none
        | .other _ => none
      | _ => none
  | _, _ => none

def finalizeFrom (messages : List Message) (scope : Binding) : Nat → List (Candidate S) → List (Descriptor S)
  | _, [] => []
  | searchFrom, candidate :: candidates =>
    match bindCandidate sha256 messages scope searchFrom candidate with
    | some descriptor => descriptor :: finalizeFrom messages scope (descriptor.outputIndex + 1) candidates
    | none => finalizeFrom messages scope searchFrom candidates

def finalizeEmissionDescriptors (messages : List Message) (candidates : List (Candidate S)) (scope : Binding) :
    List (Descriptor S) :=
  finalizeFrom sha256 messages scope 0 candidates

/-! ## The reader -/

structure Proof (S : Type) where
  version : Nat
  binding : Binding
  emissions : List (Descriptor S)
  output : List ReplayIdentity

structure EmissionProjectionEntry (S : Type) where
  fullIdentity : ReplayIdentity
  effectiveIdentity : ReplayIdentity
  generatedSpan : Option String
  retainedSource : Option S
  /-- `recovery_base` is the kind of a row that the host merged a recovery notice into. -/
  kind : Option (EmissionKind ⊕ Unit)
  suffixSha256 : Option String
  suffixLength : Option Nat
  outputIndex : Option Nat

structure EmissionProjection (S : Type) where
  entries : List (EmissionProjectionEntry S)
  offset : Nat
  completeLength : Nat

/-- The entry of a row that no descriptor is about. -/
def unprojected (m : Message) : EmissionProjectionEntry S where
  fullIdentity := emissionIdentity m
  effectiveIdentity := emissionIdentity m
  generatedSpan := none
  retainedSource := none
  kind := none
  suffixSha256 := none
  suffixLength := none
  outputIndex := none

def Descriptor.isWellFormed (d : Descriptor S) (output : List ReplayIdentity) : Bool :=
  0 < d.generatedSpanBytes ∧ d.role ≠ "" ∧ (d.outputOf.all fun length => d.outputIndex < length) ∧
    (output = [] ∨ d.outputIndex < output.length)

/-- A span without any text behind it is generated only if the output had no more rows like it than there are now. -/
def multiplicityAgrees (messages : List Message) (d : Descriptor S) (output : List ReplayIdentity)
    (span : String) : Bool :=
  let found := (emissionCandidateRows messages (some d.role)
    (startsWithDigest sha256 d.generatedSpanBytes d.generatedSpanSha256)).countP fun p => p.1.content = .text span
  let recorded :=
    match output[d.outputIndex]? with
    | some identity => some (output.countP (· = identity))
    | none => d.outputMultiplicity
  recorded.any (· ≤ found)

/-- The entry that a descriptor gives to the row of its ordinal, if that row is the one it describes. -/
def projectRow (messages : List Message) (d : Descriptor S) (output : List ReplayIdentity)
    (message : Message) (content : String) :
    Option (EmissionProjectionEntry S) :=
  let raw := encode content.toList
  match decode (raw.take d.generatedSpanBytes), decode (raw.drop d.generatedSpanBytes) with
  | some span, some suffix =>
    let normalizedSuffix := encode (strip suffix)
    if d.suffixLength ≤ normalizedSuffix.length ∧ sha256 (normalizedSuffix.take d.suffixLength) = d.suffixSha256 ∧
        (d.suffixLength = 0 → normalizedSuffix = [] →
          multiplicityAgrees sha256 messages d output (String.ofList span)) then
      some
        { fullIdentity := emissionIdentity message
          effectiveIdentity := identityWith message (String.ofList suffix)
          generatedSpan := some (String.ofList span)
          retainedSource := d.retainedSource
          kind := some (.inl d.kind)
          suffixSha256 := some d.suffixSha256
          suffixLength := some d.suffixLength
          outputIndex := some d.outputIndex }
    else none
  | _, _ => none

/-- The entry of a user row that the host joined a recovery notice to, with an empty line between them. -/
def projectMerged (d : Descriptor S) (base : MergeBase) (message : Message) : Option (EmissionProjectionEntry S) :=
  match message.content with
  | .other _ => none
  | .text content =>
    let raw := encode content.toList
    let cut := raw.length - d.generatedSpanBytes
    if message.role = "user" ∧ message.isPlain ∧ (raw.take cut).drop (cut - 2) = encode ['\n', '\n'] ∧
        sha256 (raw.drop cut) = d.generatedSpanSha256 then
      -- the two line breaks stand between two texts, so both decode
      match decode (raw.take (cut - 2)), decode (raw.drop cut) with
      | some older, some span =>
        let normalized := encode (strip older)
        if normalized.length = base.bytes ∧ sha256 normalized = base.sha256 then
          some
            { fullIdentity := emissionIdentity message
              effectiveIdentity := identityWith message (String.ofList older)
              generatedSpan := some (String.ofList span)
              retainedSource := none
              kind := some (.inr ())
              suffixSha256 := none
              suffixLength := none
              outputIndex := some d.outputIndex }
        else none
      | _, _ => none
    else none

/-- The first row from `searchFrom` on, before the recorded one, that a recovery notice was merged into. -/
def mergedRow (messages : List Message) (d : Descriptor S) (base : MergeBase) (searchFrom : Nat) :
    Option (EmissionProjectionEntry S × Nat) :=
  ((messages.zipIdx.take d.outputIndex).drop searchFrom).findSome? fun p =>
    (projectMerged sha256 d base p.1).map fun entry => (entry, p.2)

/-- Where a descriptor finds its row, if it does. -/
def findOccurrence (messages : List Message) (output : List ReplayIdentity) (searchFrom : Nat) (d : Descriptor S) :
    Option (EmissionProjectionEntry S × Nat) :=
  let rows := emissionCandidateRows messages (some d.role)
    (startsWithDigest sha256 d.generatedSpanBytes d.generatedSpanSha256)
  -- only the row of the ordinal can be taken
  let occurrence := rows[d.samePrefixOrdinal]?
  if occurrence.any fun p => p.2 < searchFrom then none
  else
    match occurrence.bind fun p => p.1.content.text?.bind fun content =>
        (projectRow sha256 messages d output p.1 content).map fun entry => (entry, p.2) with
    | some found => some found
    | none =>
      match d.kind, d.mergeBase with
      | .recovery, some base => mergedRow sha256 messages d base searchFrom
      | _, _ => none

/-- The entries, and the position behind the last bound row. -/
def projectDescriptor (messages : List Message) (proof : Proof S) (state : List (EmissionProjectionEntry S) × Nat)
    (d : Descriptor S) : List (EmissionProjectionEntry S) × Nat :=
  if d.scope = proof.binding ∧ d.isWellFormed proof.output then
    match findOccurrence sha256 messages proof.output state.2 d with
    | some (entry, index) => (state.1.set index entry, index + 1)
    | none => state
  else state

def projectEmittedOccurrences (messages : List Message) (proof : Option (Proof S)) : EmissionProjection S :=
  let entries : List (EmissionProjectionEntry S) := messages.map unprojected
  match proof with
  | some proof =>
    if proof.version = 4 then
      ⟨(proof.emissions.foldl (projectDescriptor sha256 messages proof) (entries, 0)).1, 0, messages.length⟩
    else ⟨entries, 0, messages.length⟩
  | none => ⟨entries, 0, messages.length⟩

end

end Emission
