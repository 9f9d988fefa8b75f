import LcmX.Lib.Json
import LcmX.Lib.PyText
import LcmX.Lib.Regex
import Mathlib

/-!
# Externalized inline payloads

Before a text is stored, the long base64 payloads in it are written to files of
their own and replaced by placeholders: data URIs first, then single long runs,
then blocks of wrapped lines. A payload that cannot be written stays where it is.
The placeholders of a stored text are replaced by their payloads again.
-/
namespace Ingest

open Regex PyText

attribute [local instance] PyText.lawfulBEq_text

/-- `[A-Za-z0-9+/=_-]`. -/
def isBase64Char (c : Char) : Bool := isAsciiAlnum c || c = '+' || c = '/' || c = '=' || c = '_' || c = '-'

/-! ## The patterns -/

/-- `(?:/|\\/|\\u002[fF])`. -/
def jsonEscapedSlashRe : Re :=
  .or (.char (· = '/')) (.or (lit ['\\', '/']) (.seq (.char (· = '\\')) (litIgnoringCase "u002f".toList)))

/--
`data:(?:[A-Za-z0-9.+-]|/)*(?:;[A-Za-z0-9_.+%-]+=(?:[-A-Za-z0-9_.+%]|/)*)*;base64,(?:[A-Za-z0-9+=]|/){256,}(?=$|[^A-Za-z0-9+/=])`,
with the escaped forms of each slash. -/
def dataUriBase64Re : Re :=
  let isParameterChar := fun c => isAlnumIgnoringCase c || c = '_' || c = '.' || c = '+' || c = '%' || c = '-'
  .seq (litIgnoringCase "data:".toList)
    (.seq (star (.or (.char fun c => isAlnumIgnoringCase c || c = '.' || c = '+' || c = '-') jsonEscapedSlashRe))
      (.seq (star (.seq (.char (· = ';')) (.seq (plus (.char isParameterChar)) (.seq (.char (· = '='))
          (star (.or (.char isParameterChar) jsonEscapedSlashRe))))))
        (.seq (litIgnoringCase ";base64,".toList)
          (.seq (atLeast 256 (.or (.char fun c => isAlnumIgnoringCase c || c = '+' || c = '=') jsonEscapedSlashRe))
            (.test fun _ ahead => ahead.head?.all
              fun c => !(isAlnumIgnoringCase c || c = '+' || c = '/' || c = '='))))))

/-- `(?<![A-Za-z0-9+/=_-])([A-Za-z0-9+/=_-]{4096,})(?![A-Za-z0-9+/=_-])`. -/
def base64RunRe : Re :=
  .seq (.test fun behind _ => behind.head?.all fun c => !isBase64Char c)
    (.seq (.group 1 (atLeast 4096 (.char isBase64Char)))
      (.test fun _ ahead => ahead.head?.all fun c => !isBase64Char c))

/-- `_EXTERNALIZED_PLACEHOLDER_PREFIX`. -/
def externalizedPlaceholderPrefix : List Char := "[Externalized LCM ingest payload:".toList

/-- `\[Externalized LCM ingest payload:.*?;\s*ref=([^;\]\s]+)\]`. -/
def ingestPlaceholderRe : Re :=
  .seq (lit externalizedPlaceholderPrefix) (.seq (.rep true 0 none (.char (· ≠ '\n')))
    (.seq (.char (· = ';')) (.seq (star (.char isSpace)) (.seq (lit "ref=".toList)
      (.seq (.group 1 (plus (.char fun c => c ≠ ';' && c ≠ ']' && !isSpace c))) (.char (· = ']')))))))

def isExternalizedIngestPlaceholder (text : List Char) : Bool := (fullmatch ingestPlaceholderRe [] (strip text)).isSome

/-! ## What looks like a payload -/

def looksLikeLongBase64 (text : List Char) : Bool :=
  -- "".join(text.split())
  let compact := text.filter fun c => !isSpace c
  4096 ≤ text.length ∧ 4096 ≤ compact.length ∧ compact.length % 4 ≠ 1 ∧
    text.all (fun c => isBase64Char c || isSpace c) ∧
    -- base64_chars / len(compact) >= 0.98
    98 * compact.length ≤ 100 * compact.countP isBase64Char ∧
    8 ≤ (compact.rdropWhile (· = '=')).dedup.length

def isLineBreakStripped (c : Char) : Bool := c = '\r' || c = '\n'

def isWrappedBase64Line (line : List Char) : Bool :=
  let stripped := stripBy isLineBreakStripped line
  40 ≤ stripped.length ∧ stripped.all isBase64Char

def isWrappedBase64TerminalLine (line : List Char) : Bool :=
  let stripped := stripBy isLineBreakStripped line
  16 ≤ stripped.length ∧ stripped.length < 40 ∧ stripped.length % 4 = 0 ∧ stripped.all isBase64Char

def isHexDigit (c : Char) : Bool := c.isDigit || ('a' ≤ c && c ≤ 'f') || ('A' ≤ c && c ≤ 'F')

/-- `_looks_like_hex_hash_inventory`: at least two lines, each a digest. -/
def looksLikeHexHashInventory (payload : List Char) : Bool :=
  let lines := ((splitlines payload).map strip).filter (· ≠ [])
  2 ≤ lines.length ∧ lines.all fun line => line.length ∈ [40, 56, 64, 96, 128] ∧ line.all isHexDigit

/-- A block that is closed: a payload, or lines like any other. -/
def finishBlock (block : List Char) : List (Char ⊕ List Char) :=
  if block ≠ [] ∧ ¬ looksLikeHexHashInventory block ∧ looksLikeLongBase64 block then [.inr block]
  else block.map .inl

/-- `_iter_wrapped_base64_blocks`: the text of some lines, cut into the blocks and the characters between them;
the lines of the open block come first. -/
def wrappedBase64Blocks (block : List Char) : List (List Char) → List (Char ⊕ List Char)
  | [] => finishBlock block
  | line :: lines =>
    if isWrappedBase64Line line ∨ (block ≠ [] ∧ isWrappedBase64TerminalLine line) then
      wrappedBase64Blocks (block ++ line) lines
    else finishBlock block ++ line.map .inl ++ wrappedBase64Blocks [] lines

/-! ## The payload files -/

/-- What the clock and the file system say to one call. -/
structure Attempt where
  /-- The storage directory can be made. -/
  directory : Bool
  /-- `%Y%m%d` and `%H%M%S`. -/
  date : Fin 8 → Fin 10
  clock : Fin 6 → Fin 10
  timeNs : Fin (2 ^ 63)
  /-- The write goes through, if the file does not exist. -/
  written : Bool

structure IngestPayload where
  kind : String
  role : String
  sessionId : String
  fieldPath : List Char
  content : List Char
deriving DecidableEq, Repr

/-- The calls so far and the payload files. -/
structure Storage where
  calls : Nat
  files : List (List Char × IngestPayload)

/-- The environment of the calls. -/
structure Host where
  attempt : Nat → Attempt
  sha256 : List UInt8 → List UInt8

/-- Where the text comes from. -/
structure Field where
  role : String
  sessionId : String
  fieldPath : List Char

/-- `re.sub(r"[^...]+", "-", text)`: one dash for each run of other characters. -/
def dashRuns (safe : Char → Bool) : List Char → List Char
  | [] => []
  | c :: rest =>
    if safe c then c :: dashRuns safe rest
    else if rest.head?.any fun d => !safe d then dashRuns safe rest
    else '-' :: dashRuns safe rest

def isStubChar (c : Char) : Bool := isAsciiAlnum c || c = '_' || c = '.' || c = '-'

def isMetadataChar (c : Char) : Bool := isAsciiAlnum c || c = '_' || c = '.' || c = ':' || c = '/' || c = '-'

def placeholderMetadata (value : List Char) : List Char :=
  let text := if value = [] then ['?'] else value
  let safe := stripBy (· = '-') (dashRuns isMetadataChar text)
  (if safe = [] then ['?'] else safe).take 120

/-- `hexdigest()`. -/
def hexText (bytes : List UInt8) : List Char :=
  bytes.flatMap fun b => [Json.hexDigit (b.toNat / 16), Json.hexDigit (b.toNat % 16)]

def digitText {n : Nat} (digits : Fin n → Fin 10) : List Char := (List.ofFn digits).map fun d => Char.ofNat (48 + d.val)

/-- The kind of a payload that `_placeholder_for_payload` writes. -/
def ingestPayloadKind : String := "ingest_payload"

/-- The name of the file of a payload. -/
def payloadRef (h : Host) (a : Attempt) (f : Field) (content : List Char) : List Char :=
  let fieldStub := (dashRuns isStubChar (if f.fieldPath = [] then "payload".toList else f.fieldPath)).take 48
  digitText a.date ++ ['_'] ++ digitText a.clock ++ ['_'] ++ ingestPayloadKind.toList ++ ['_'] ++ fieldStub ++ ['_'] ++
    (hexText (h.sha256 (encode content))).take 12 ++ ['_'] ++ Nat.toDigits 16 a.timeNs ++ ".json".toList

def placeholderText (p : IngestPayload) (ref : List Char) : List Char :=
  externalizedPlaceholderPrefix ++ " kind=".toList ++ placeholderMetadata p.kind.toList ++
    "; field=".toList ++ placeholderMetadata p.fieldPath ++ "; chars=".toList ++ Nat.toDigits 10 p.content.length ++
    "; bytes=".toList ++ Nat.toDigits 10 (encode p.content).length ++ "; ref=".toList ++ ref ++ [']']

/-- `externalize_ingest_payload`: the placeholder of a payload that was written. -/
def externalizeIngestPayload (h : Host) (f : Field) (content : List Char) (s : Storage) :
    Option (List Char) × Storage :=
  let a := h.attempt s.calls
  let ref := payloadRef h a f content
  let p : IngestPayload := ⟨ingestPayloadKind, f.role, f.sessionId, f.fieldPath, content⟩
  -- the file is opened with O_EXCL
  if content ≠ [] ∧ a.directory ∧ a.written ∧ ref ∉ s.files.map Prod.fst then
    (some (placeholderText p ref), ⟨s.calls + 1, s.files ++ [(ref, p)]⟩)
  else (none, { s with calls := s.calls + 1 })

/-- `_placeholder_for_payload(...) or payload`. -/
def placeholderForPayload (h : Host) (f : Field) (payload : List Char) (s : Storage) : List Char × Storage :=
  let (placeholder, s) := externalizeIngestPayload h f payload s
  (placeholder.getD payload, s)

def replaceDataUri (h : Host) (f : Field) (m : Match) (s : Storage) : List Char × Storage :=
  placeholderForPayload h f m.text s

def replaceBase64Run (h : Host) (f : Field) (m : Match) (s : Storage) : List Char × Storage :=
  let payload := (m.group 1).getD []
  if looksLikeLongBase64 payload then placeholderForPayload h f payload s else (payload, s)

def protectPayloadSubstrings (h : Host) (f : Field) (text : List Char) (s : Storage) : List Char × Storage :=
  if text = [] ∨ isExternalizedIngestPlaceholder text then (text, s)
  else
    let (text, s) := substitute (replaceDataUri h f) (cut dataUriBase64Re text) s
    let (text, s) := substitute (replaceBase64Run h f) (cut base64RunRe text) s
    substitute (placeholderForPayload h f) (wrappedBase64Blocks [] (splitlinesKeep text)) s

/-- `load_externalized_payload`; a reference is the plain name of a file. -/
def loadExternalizedPayload (files : List (List Char × IngestPayload)) (ref : List Char) : Option IngestPayload :=
  if ref = [] ∨ '/' ∈ ref ∨ ref = ['.'] then none else (files.find? fun file => file.1 = ref).map Prod.snd

def restoreMatch (files : List (List Char × IngestPayload)) (sessionId : String) (m : Match) : List Char :=
  let ref := strip ((m.group 1).getD [])
  match loadExternalizedPayload files ref with
  | none => m.text
  | some payload =>
    if payload.kind ≠ ingestPayloadKind then m.text
    else if sessionId ≠ "" ∧ payload.sessionId ≠ "" ∧ payload.sessionId ≠ sessionId then m.text
    else payload.content

def restoreIngestPayloadPlaceholders (files : List (List Char × IngestPayload)) (sessionId : String)
    (text : List Char) :
    List Char :=
  if contains externalizedPlaceholderPrefix text then
    sub ingestPlaceholderRe (restoreMatch files sessionId) text else text

end Ingest
