import LcmX.ActiveCleanup
import LcmX.EmissionProjection

/-!
# Stored emission records

A commit proof is read back from the metadata of a session as any JSON value. The loader keeps the descriptors of
a shape that later readers index into, and the projection checks the other fields one by one.
-/
namespace Emission.Record

open PyText Reconcile

abbrev Members := List (String × Json.Value)

/-- `object.get(key)`, null where the key is absent. -/
def get (members : Members) (key : String) : Json.Value := (members.lookup key).getD .null

/-- `object[key] = value` -/
def assign (key : String) (value : Json.Value) : Members → Members
  | [] => [(key, value)]
  | m :: members => if m.1 = key then (key, value) :: members else m :: assign key value members

inductive Raised where
  | typeError | valueError | overflowError | unicodeDecodeError
deriving DecidableEq, Repr

/-! ## Equal values -/

/-- How numbers compare; a bool is a number. -/
structure Numbers where
  same : Json.Value → Json.Value → Bool
  /-- `float(value) <= bound` -/
  floatLe : Json.Value → Json.Value → Except Raised Bool

def isNumber : Json.Value → Bool
  | .bool _ | .int _ | .float _ _ => true
  | _ => false

variable (num : Numbers)

mutual

/-- `value == other` -/
def sameValue : Json.Value → Json.Value → Bool
  | .null, .null => true
  | .str s, .str t => s = t
  | .arr items, .arr others => sameItems items others
  | .obj members, .obj others => decide (members.length = others.length) && sameMembers members others
  | value, other => isNumber value && isNumber other && num.same value other

def sameItems : List Json.Value → List Json.Value → Bool
  | [], [] => true
  | value :: items, other :: others => sameValue value other && sameItems items others
  | _, _ => false

def sameMembers : Members → Members → Bool
  | [], _ => true
  | (key, value) :: members, others =>
    (match others.lookup key with
      | some other => sameValue value other
      | none => false) && sameMembers members others

end

/-! ## The loader -/

/-- The session that is bound; the reset epoch is null where the conversation was never reset. -/
structure EngineScope where
  hermesHome : String
  sessionId : String
  conversationId : String
  resetEpoch : Json.Value

/-- `_emission_binding` -/
def emissionBinding (scope : EngineScope) : Members :=
  [("hermes_home", .str scope.hermesHome), ("session_id", .str scope.sessionId),
    ("conversation_id", .str scope.conversationId),
    ("reset_epoch", scope.resetEpoch)]

/-- `_emission_proof_matches_binding` -/
def emissionProofMatchesBinding (proof : Members) (binding : Members) : Bool :=
  binding.all fun m => sameValue num (get proof m.1) m.2

/-- `type(value) is int` -/
def exactInt? : Json.Value → Option Int
  | .int n => some n
  | _ => none

/-- An int that is no bool and not below zero. -/
def exactNat? (value : Json.Value) : Option Nat := (exactInt? value).bind fun n => if n < 0 then none else some n.toNat

/-- A length that the occurrence records is one that its index is below. -/
def lengthAgrees (occurrence : Members) (index : Nat) : Bool :=
  match occurrence.lookup "of" with
  | none => true
  | some recorded => (exactInt? recorded).any fun n => (index : Int) < n

/-- `_descriptor_shape_is_well_formed` -/
def descriptorShapeIsWellFormed : Json.Value → Bool
  | .obj descriptor =>
    match get descriptor "output_occurrence", get descriptor "scope" with
    | .obj occurrence, .obj _ => (exactNat? (get occurrence "index")).any fun index => lengthAgrees occurrence index
    | _, _ => false
  | _ => false

/-- Whether the record is from before the last reset of the conversation. -/
def predatesReset (scope : EngineScope) (payload : Members) : Except Raised Bool :=
  match scope.resetEpoch with
  | .null => .ok false
  | epoch =>
    let created := get payload "created_at"
    num.floatLe (if isTruthy created then created else .int 0) epoch

/-- The digests of this reader's own projection. -/
def currentDigest (payload : Members) (key : String) : Members :=
  match payload.lookup (key ++ "_v4") with
  | some digest => assign key digest payload
  | none => payload

/-- A record of version 4 with the descriptors that are kept. -/
def relabelled (payload : Members) (items : List Json.Value) : Members :=
  ["effective_sha256", "scaffold_sha256"].foldl currentDigest
    (assign "emissions" (.arr (items.filter descriptorShapeIsWellFormed)) (assign "version" (.int 4) payload))

def hasVersion (payload : Members) (version : Int) : Bool := sameValue num (get payload "version") (.int version)

/-- The descriptors of a record that is bound to this session. -/
def boundEmissions (scope : EngineScope) (payload : Members) : Option (List Json.Value) :=
  if (hasVersion num payload 4 ||
    (hasVersion num payload 3 && sameValue num (get payload "descriptor_version") (.int 4))) &&
      emissionProofMatchesBinding num payload (emissionBinding scope) then
    match get payload "emissions" with
    | .arr items => some items
    | _ => none
  else none

/-- `_durable_commit_proof_payload` of the stored record -/
def durableCommitProofPayload (scope : EngineScope) (record : Json.Value) : Except Raised (Option Members) :=
  match record with
  | .obj payload =>
    if !(hasVersion num payload 2 || hasVersion num payload 3 || hasVersion num payload 4) then .ok none
    else if !sameValue num (get payload "hermes_home") (.str scope.hermesHome) then .ok none
    else if !sameValue num (get payload "conversation_id") (.str scope.conversationId) then .ok none
    else do
      if ← predatesReset num scope payload then return none
      match boundEmissions num scope payload with
      | some items => return some (relabelled payload items)
      | none => return if hasVersion num payload 4 then none else some (assign "emissions" (.arr []) payload)
  | _ => .ok none

/-! ## The fields of a descriptor -/

def emissionKind? : String → Option EmissionKind
  | "summary" => some .summary
  | "carrier" => some .carrier
  | "objective" => some .objective
  | "recovery" => some .recovery
  | _ => none

/-- A list or an object has no hash, so no set can be asked for it. -/
def isUnhashable : Json.Value → Bool
  | .arr _ | .obj _ => true
  | _ => false

/-- `kind in {"summary", "carrier", "objective", "recovery"}` -/
def kindOf (value : Json.Value) : Except Raised (Option EmissionKind) :=
  if isUnhashable value then .error .typeError
  else
    match value with
    | .str name => .ok (emissionKind? name)
    | _ => .ok none

/-- The session that the descriptors have to be of. -/
def expectedBinding (proof : Members) : Members :=
  ["hermes_home", "session_id", "conversation_id", "reset_epoch"].map fun key => (key, get proof key)

/-- A length above zero; `True` is an int. -/
def spanLength? : Json.Value → Option Nat
  | .int n => if n ≤ 0 then none else some n.toNat
  | .bool true => some 1
  | _ => none

def text? : Json.Value → Option String
  | .str s => some s
  | _ => none

/-- The fields that a row is looked for by. -/
structure Fields where
  length : Nat
  digest : String
  suffixLength : Nat
  suffixDigest : String
  role : String
  ordinal : Nat
  outputIndex : Nat

def items? : Json.Value → Option (List Json.Value)
  | .arr items => some items
  | _ => none

/-- The identities that the record keeps; none of them where one is malformed. -/
def outputOf (proof : Members) : List (List Json.Value) :=
  (((items? (get proof "output")).bind fun items => items.mapM items?).getD [])

/-- The fields of a descriptor, where none of them is malformed. -/
def fieldsOf (output : List (List Json.Value)) (descriptor : Members) : Option Fields := do
  let occurrence ← match get descriptor "output_occurrence" with
    | .obj occurrence => some occurrence
    | _ => none
  let length ← spanLength? (get descriptor "generated_span_bytes")
  let digest ← text? (get descriptor "generated_span_sha256")
  let role ← text? (get descriptor "role")
  if role = "" then none
  let ordinal ← exactNat? (get descriptor "same_prefix_ordinal")
  let suffixLength ← exactNat? (get descriptor "suffix_length")
  let suffixDigest ← text? (get descriptor "suffix_sha256")
  let outputIndex ← exactNat? (get occurrence "index")
  if !lengthAgrees occurrence outputIndex then none
  if output ≠ [] ∧ output.length ≤ outputIndex then none
  return ⟨length, digest, suffixLength, suffixDigest, role, ordinal, outputIndex⟩

/-! ## Rows -/

/-- A content that was cut into the generated span and the rest. -/
structure Cut where
  span : String
  rest : String

variable (sha256 : List UInt8 → String)

def candidateRows (messages : List Message) (f : Fields) : List (Message × Nat) :=
  emissionCandidateRows messages (some f.role) (startsWithDigest sha256 f.length f.digest)

/-- There are no more rows of the identity in the record's output than rows of the span now. -/
def multiplicityAgrees (messages : List Message) (output : List (List Json.Value))
    (descriptor : Members) (f : Fields) (span : String) : Bool :=
  let found := (candidateRows sha256 messages f).countP fun p => p.1.content = .text span
  match output[f.outputIndex]? with
  | some identity => output.countP (fun item => sameItems num item identity) ≤ found
  | none => (exactInt? (get descriptor "output_multiplicity")).any fun n => n ≤ (found : Int)

/-- The cut behind the first bytes of a content, where what follows has the recorded digest. -/
def cutRow (messages : List Message) (output : List (List Json.Value)) (descriptor : Members)
    (f : Fields) (content : String) : Option Cut :=
  let raw := encode content.toList
  match decode (raw.take f.length), decode (raw.drop f.length) with
  | some span, some suffix =>
    let normalizedSuffix := encode (strip suffix)
    if normalizedSuffix.length < f.suffixLength ∨ sha256 (normalizedSuffix.take f.suffixLength) ≠
      f.suffixDigest then none
    else if f.suffixLength = 0 ∧ normalizedSuffix = [] ∧
        !multiplicityAgrees num sha256 messages output descriptor f (String.ofList span) then none
    else some ⟨String.ofList span, String.ofList suffix⟩
  | _, _ => none

/-- How the loop over the candidate rows ends. -/
inductive Scan where
  | found (message : Message) (index : Nat) (cut : Cut)
  /-- It breaks at a row that stands before the last claimed one. -/
  | stopped
  | finished

/-- The loop over the candidate rows, from the one with the number `n` on. -/
def scanRows (messages : List Message) (output : List (List Json.Value)) (descriptor : Members)
    (f : Fields) (searchFrom : Nat) :
    Nat → List (Message × Nat) → Scan
  | _, [] => .finished
  | n, (message, index) :: rows =>
    if n ≠ f.ordinal then scanRows messages output descriptor f searchFrom (n + 1) rows
    else if index < searchFrom then .stopped
    else
      match message.content.text?.bind (cutRow num sha256 messages output descriptor f) with
      | some cut => .found message index cut
      | none => scanRows messages output descriptor f searchFrom (n + 1) rows

/-- The cut of a content that ends in the span, behind an empty line. -/
def cutMerged (base : Members) (f : Fields) (message : Message) : Except Raised (Option Cut) :=
  match message.content with
  | .other _ => .ok none
  | .text content =>
    let raw := encode content.toList
    let start := raw.length - f.length
    if message.role ≠ "user" ∨ message.isPlain = false then .ok none
    else if (raw.take start).drop (start - 2) ≠ encode ['\n', '\n'] ∨ sha256 (raw.drop start) ≠ f.digest then .ok none
    else
      match decode (raw.take (start - 2)) with
      | none => .error .unicodeDecodeError
      | some older =>
        let normalized := encode (strip older)
        if !sameValue num (.int normalized.length)
          (get base "bytes") || !sameValue num (.str (sha256 normalized)) (get base "sha256") then
          .ok none
        else
          match decode (raw.drop start) with
          | none => .error .unicodeDecodeError
          | some span => .ok (some ⟨String.ofList span, String.ofList older⟩)

/-- The loop over the rows that the host may have joined a recovery notice to. -/
def scanMerged (base : Members) (f : Fields) : List (Message × Nat) → Except Raised (Option (Message × Nat × Cut))
  | [] => .ok none
  | (message, index) :: rows => do
    match ← cutMerged num sha256 base f message with
    | some cut => return some (message, index, cut)
    | none => scanMerged base f rows

/-! ## The projection -/

abbrev Entry := EmissionProjectionEntry Json.Value

/-- The entries so far, and the position behind the row that was claimed last. -/
structure Progress where
  entries : List Entry
  searchFrom : Nat

/-- The full identity of an entry stays. -/
def rowEntry (descriptor : Members) (kind : EmissionKind) (f : Fields) (message : Message)
    (cut : Cut) (entry : Entry) : Entry where
  fullIdentity := entry.fullIdentity
  effectiveIdentity := identityWith message cut.rest
  generatedSpan := some cut.span
  retainedSource := match get descriptor "retained_source" with
    | .null => none
    | source => some source
  kind := some (.inl kind)
  suffixSha256 := some f.suffixDigest
  suffixLength := some f.suffixLength
  outputIndex := some f.outputIndex

def mergedEntry (f : Fields) (message : Message) (cut : Cut) (entry : Entry) : Entry where
  fullIdentity := entry.fullIdentity
  effectiveIdentity := identityWith message cut.rest
  generatedSpan := some cut.span
  retainedSource := none
  kind := some (.inr ())
  suffixSha256 := none
  suffixLength := none
  outputIndex := some f.outputIndex

/-- A descriptor of this session whose fields are all there. -/
def projectFields (messages : List Message) (output : List (List Json.Value)) (descriptor : Members)
    (kind : EmissionKind) (f : Fields)
    (s : Progress) : Except Raised Progress :=
  match scanRows num sha256 messages output descriptor f s.searchFrom 0 (candidateRows sha256 messages f) with
  | .found message index cut => .ok ⟨s.entries.modify index (rowEntry descriptor kind f message cut), index + 1⟩
  | .stopped => .ok s
  | .finished =>
    match kind, get descriptor "merge_base" with
    | .recovery, .obj base => do
      match ← scanMerged num sha256 base f ((messages.zipIdx.take f.outputIndex).drop s.searchFrom) with
      | some (message, index, cut) => return ⟨s.entries.modify index (mergedEntry f message cut), index + 1⟩
      | none => return s
    | _, _ => .ok s

def projectDescriptor (messages : List Message) (proof : Members) (s : Progress)
    (value : Json.Value) : Except Raised Progress :=
  match value with
  | .obj descriptor => do
    match ← kindOf (get descriptor "kind") with
    | none => return s
    | some kind =>
      if !sameValue num (get descriptor "scope") (.obj (expectedBinding proof)) then return s
      match fieldsOf (outputOf proof) descriptor with
      | none => return s
      | some f => projectFields num sha256 messages (outputOf proof) descriptor kind f s
  | _ => .ok s

/-- What a loop over `proof.get("emissions") or ()` goes through. -/
def emissionsOf (proof : Members) : Except Raised (List Json.Value) :=
  match get proof "emissions" with
  | .arr items => .ok items
  | .obj members => .ok (members.map fun m => .str m.1)
  | .str s => .ok (s.toList.map fun c => .str (String.ofList [c]))
  | value => if isTruthy value then .error .typeError else .ok []

def start (messages : List Message) : Progress := ⟨messages.map unprojected, 0⟩

/-- `_project_emitted_occurrences` -/
def projectEmittedOccurrences (messages : List Message) (proof : Option Members) :
    Except Raised (EmissionProjection Json.Value) :=
  match proof with
  | none => .ok ⟨(start messages).entries, 0, messages.length⟩
  | some proof =>
    if !hasVersion num proof 4 then .ok ⟨(start messages).entries, 0, messages.length⟩
    else do
      let s ← (← emissionsOf proof).foldlM (projectDescriptor num sha256 messages proof) (start messages)
      return ⟨s.entries, 0, messages.length⟩

end Emission.Record
