import LcmX.PayloadPlaceholder

/-!
# Stubs of externalized payloads

A payload that `maybe_externalize_payload` writes is replaced by a stub that names its file.
The stub of a message shows the head and the tail of the text, within the length that the
readers of stubs accept. The redaction of the text and the extraction of the text of a media
payload are arguments.
-/
namespace PayloadStub

open Regex PyText Ingest

attribute [local instance] PyText.lawfulBEq_text

abbrev Text := List Char

/-- How a call ends: with a value, with an exception, or out of memory. -/
inductive Outcome (α : Type) where
  | ok (value : α)
  | raised
  | memoryError
  deriving DecidableEq, Repr

def Outcome.map {α β : Type} (f : α → β) : Outcome α → Outcome β
  | .ok value => .ok (f value)
  | .raised => .raised
  | .memoryError => .memoryError

def Outcome.bind {α β : Type} (x : Outcome α) (f : α → Outcome β) : Outcome β :=
  match x with
  | .ok value => f value
  | .raised => .raised
  | .memoryError => .memoryError

/-- `digest()` of SHA-256. -/
abbrev Digest := { bytes : List UInt8 // bytes.length = 32 }

structure Host where
  redactCatalogSensitiveText : Text → Outcome Text
  mediaPayloadPreviewContent : Text → Outcome Text
  sha256 : List UInt8 → Digest

/-! ## The names of the files -/

def toolCallStub (toolCallId : Text) : Text :=
  ((if toolCallId = [] then "tool-result".toList else toolCallId).map fun c => if c = '/' ∨
    c = ':' then '-' else c).take 48

def safeStub (value fallback : Text) : Text :=
  let text := dashRuns isStubChar (strip value)
  (if text = [] then fallback else text).take 48

def contentDigestPrefix (host : Host) (content : Text) : Text := (hexText (host.sha256 (encode content)).val).take 12

def toolResult : Text := "tool_result".toList
def rawPayload : Text := "raw_payload".toList
def mediaPayload : Text := "media_payload".toList

/-- What is between the time and the digest in a file name. -/
def nameStub (kind role toolCallId : Text) : Text :=
  if kind = toolResult then toolCallStub toolCallId
  else safeStub kind "payload".toList ++ ['_'] ++ safeStub role "message".toList

def payloadFileName (host : Host) (a : Attempt) (kind role toolCallId content : Text) : Text :=
  digitText a.date ++ ['_'] ++ digitText a.clock ++ ['_'] ++ nameStub kind role toolCallId ++
    ['_'] ++ contentDigestPrefix host content ++ ['_'] ++
    Nat.toDigits 16 a.timeNs ++ ".json".toList

/-- `Path(ref).name`. -/
def pathName (ref : Text) : Text := ((ref.splitOn '/').filter fun part => part ≠ [] ∧ part ≠ ['.']).getLast?.getD []

def isHexChar (c : Char) : Bool := c.isDigit || ('a' ≤ c && c ≤ 'f')

def times (n : Nat) (a : Re) : Re := .rep false n (some n) a

/-- `_GENERATED_PAYLOAD_REF_RE`. -/
def generatedPayloadRefRe : Re :=
  .seq (times 8 (.char isDecimal)) (.seq (.char (· = '_')) (.seq (times 6 (.char isDecimal)) (.seq (.char (· = '_'))
    (.seq (plus (.char (· ≠ '\n'))) (.seq (.char (· = '_')) (.seq (times 12 (.char isHexChar)) (.seq (.char (· = '_'))
      (.seq (plus (.char isHexChar)) (lit ".json".toList)))))))))

def isGeneratedPayloadRefName (ref : Text) : Bool :=
  ref ≠ [] ∧ (fullmatch generatedPayloadRefRe [] (pathName ref)).isSome

/-! ## The preview of a text -/

def placeholderToolNameMaxChars : Nat := 64
def placeholderMaxChars : Nat := 512
def rawPayloadPreviewMinChars : Nat := 40
def rawPayloadPreviewJoiner : Text := " ... ".toList
def rawPayloadPreviewScanFactor : Nat := 8
def rawPayloadPreviewContext : Nat := 8192

/-- `_RAW_PAYLOAD_PREVIEW_TRANSLATION`. -/
def translatePreview (c : Char) : Char :=
  if c = '[' then '(' else if c = ']' then ')' else if c = ';' then ',' else if c = '"' then '\'' else c

/-- `[A-Za-z0-9._~+/=-]`. -/
def isCutRunChar (c : Char) : Bool :=
  isAsciiAlnum c || c = '.' || c = '_' || c = '~' || c = '+' || c = '/' || c = '=' || c = '-'

/-- What `_raw_payload_preview_text` makes of the redacted text. -/
def neutralize (text : Text) : Text :=
  let text := [' '].intercalate (split text)
  let text := sub (litIgnoringCase "quarantined_assistant_output".toList)
    (fun _ => "quarantined-assistant-output".toList) text
  sub (lit "ref=".toList) (fun _ => "ref_".toList) (text.map translatePreview)

def rawPayloadPreviewText (host : Host) (text : Text) : Outcome Text :=
  (host.redactCatalogSensitiveText text).map neutralize

/-- `text[-n:]`. -/
def lastChars (n : Nat) (text : Text) : Text := if n = 0 then text else text.drop (text.length - n)

/-- Where the scan of the tail starts, and without a run that its start cuts. -/
def tailScan (content : Text) (window : Nat) : Text :=
  let start := max window (content.length - window - rawPayloadPreviewContext)
  let scan := content.drop start
  if (content.drop (start - 1)).head?.any isCutRunChar then scan.dropWhile isCutRunChar else scan

def rawPayloadPreview (host : Host) (content : Text) (room : Nat) : Outcome Text :=
  let keep := room - rawPayloadPreviewJoiner.length
  let head := keep * 7 / 10
  let window := room * rawPayloadPreviewScanFactor
  if 2 * window < content.length then
    (rawPayloadPreviewText host (content.take window)).bind fun headText =>
      (rawPayloadPreviewText host (tailScan content window)).map fun tailText =>
        headText.take head ++ rawPayloadPreviewJoiner ++ lastChars (keep - head) tailText
  else
    (rawPayloadPreviewText host content).map fun text =>
      if text.length ≤ room then text
      else text.take head ++ rawPayloadPreviewJoiner ++ text.drop (text.length - (keep - head))

/-! ## The stubs -/

structure Summary where
  kind : Text
  toolCallId : Text
  toolName : Text
  role : Text
  contentChars : Nat
  contentBytes : Nat
  ref : Text
  deriving DecidableEq, Repr

def orMark (value : Text) : Text := if value = [] then ['?'] else value

def Summary.payloadHead (summary : Summary) (kind : Text) : Text :=
  "[Externalized payload: kind=".toList ++ kind ++ "; role=".toList ++ placeholderMetadata (orMark summary.role) ++
    "; chars=".toList ++ Nat.toDigits 10 summary.contentChars ++ "; bytes=".toList ++
      Nat.toDigits 10 summary.contentBytes ++ "; ".toList

def Summary.readWith (summary : Summary) : Text :=
  "read it with lcm_expand(externalized_ref=\"".toList ++ summary.ref ++ "\"); ref=".toList ++ summary.ref ++ "]".toList

/-- The stub of a payload without its text. -/
def Summary.payloadStub (summary : Summary) (kind : Text) : Text :=
  summary.payloadHead kind ++ "ref=".toList ++ summary.ref ++ "]".toList

/-- The stub of a tool output. -/
def Summary.toolStub (summary : Summary) : Text :=
  let rest := "; tool_call_id=".toList ++ placeholderMetadata (orMark summary.toolCallId) ++
    "; chars=".toList ++ Nat.toDigits 10 summary.contentChars ++ "; bytes=".toList ++
      Nat.toDigits 10 summary.contentBytes ++ "; ".toList ++ summary.readWith
  let head := "[Externalized tool output: tool=".toList
  let room : Int := placeholderMaxChars - head.length - rest.length
  head ++ (placeholderMetadata (orMark summary.toolName)).take
    (max 1 (min (placeholderToolNameMaxChars : Int) room)).toNat ++ rest

/-- `_build_externalized_placeholder` without a content. -/
def buildPlain (summary : Summary) (kind : Text) : Text :=
  if kind ≠ toolResult then summary.payloadStub kind else summary.toolStub

/-- The stub of a message, with the preview when there is room for one. -/
def buildPreviewed (host : Host) (summary : Summary) (kind content : Text) : Outcome Text :=
  let head := summary.payloadHead kind
  let rest := summary.readWith
  let room : Int := placeholderMaxChars - 1 - head.length - rest.length - "preview=\"\"; ".toList.length
  if rawPayloadPreviewMinChars ≤ room then
    match rawPayloadPreview host content room.toNat with
    | .ok preview => .ok (head ++ "preview=\"".toList ++ preview ++ "\"; ".toList ++ rest)
    | .memoryError => .memoryError
    | .raised => if kind ≠ mediaPayload then .raised else .ok (buildPlain summary kind)
  else if head.length + rest.length < placeholderMaxChars then .ok (head ++ rest)
  else .ok (buildPlain summary kind)

/-- `_build_externalized_placeholder`. -/
def buildExternalizedPlaceholder (host : Host) (summary : Summary) (content : Text) : Outcome Text :=
  let kind := placeholderMetadata (if summary.kind = [] then toolResult else summary.kind)
  if kind = mediaPayload ∧ content ≠ [] then
    match host.mediaPayloadPreviewContent content with
    | .ok content => if content ≠ [] then buildPreviewed host summary kind content else .ok (buildPlain summary kind)
    | .memoryError => .memoryError
    | .raised => .ok (buildPlain summary kind)
  else if kind = rawPayload ∧ content ≠ [] then buildPreviewed host summary kind content
  else .ok (buildPlain summary kind)

/-! ## The readers of stubs -/

/-- `_EXTERNALIZED_REF_RE`. -/
def externalizedRefRe : Re :=
  .seq (.char (· = '[')) (.seq (.or (lit "Externalized".toList) (lit "GC'd externalized".toList))
    (.seq (.char (· = ' '))
    (.seq (.or (lit "tool output".toList) (lit "payload".toList))
      (.seq (.char (· = ':')) (.seq (.rep true 0 none (.char (· ≠ '\n'))) referenceRe)))))

/-- The loop of `extract_externalized_refs` over the matches. -/
def collectRefs (refs : List Text) : List Match → List Text
  | [] => refs
  | m :: rest =>
    let ref := strip ((m.group 1).getD [])
    if ref = [] ∨ '/' ∈ ref ∨ '\\' ∈ ref ∨ pathName ref ≠ ref ∨ ref ∈ refs then collectRefs refs rest
    else collectRefs (refs ++ [ref]) rest

def extractExternalizedRefs (text : Text) : List Text := if text = [] then [] else collectRefs []
    (finditer externalizedRefRe text)

def isExternalizedPlaceholder (text : Text) : Bool :=
  let stripped := strip text
  stripped ≠ [] ∧ stripped.length ≤ 512 ∧ (fullmatch externalizedRefRe [] stripped).isSome

/-! ## Externalization -/

structure Config where
  enabled : Bool
  thresholdChars : Int

structure Request where
  content : Text
  kind : Text
  toolCallId : Text
  role : Text
  toolName : Text
  force : Bool
  write : Bool

/-- A stub with the name of its file; `written` when the call has written the file. -/
structure Externalized where
  placeholder : Text
  ref : Text
  written : Bool
  deriving DecidableEq, Repr

def Request.summary (request : Request) (ref : Text) : Summary where
  kind := request.kind
  toolCallId := request.toolCallId
  toolName := if request.kind = toolResult then request.toolName else []
  role := request.role
  contentChars := request.content.length
  contentBytes := (encode request.content).length
  ref := ref

/-- The stub of a payload that is there already; the name of the tool of the call wins. -/
def stubOfExisting (host : Host) (request : Request) (existing : Summary) : Outcome Externalized :=
  let existing := if request.toolName ≠ [] ∧ existing.toolName ≠ request.toolName then
      { existing with toolName := request.toolName } else existing
  (buildExternalizedPlaceholder host existing request.content).map fun placeholder => ⟨placeholder, existing.ref, false⟩

/-- `maybe_externalize_payload`, where `existing` is the payload that the lookup of the content has found. -/
def maybeExternalizePayload (host : Host) (a : Attempt) (config : Config)
    (existing : Option Summary) (request : Request) :
    Outcome (Option Externalized) :=
  let threshold := max 1 config.thresholdChars
  if ¬ config.enabled then .ok none
  else if request.content = [] ∨ (request.content.length ≤ threshold ∧ ¬ request.force) then .ok none
  else if ¬ a.directory then .ok none
  else match existing with
    | some existing => (stubOfExisting host request existing).map some
    | none =>
      let ref := payloadFileName host a request.kind request.role request.toolCallId request.content
      if request.write ∧ ¬ a.written then .ok none
      else (buildExternalizedPlaceholder host (request.summary ref) request.content).map
        fun placeholder => some ⟨placeholder, ref, request.write⟩

end PayloadStub
