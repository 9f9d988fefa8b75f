import LcmX.PemLines

/-!
# The private key scanner

One pass over the line model. A BEGIN line opens a block that ends at an adjacent
END line, or with its last line of key material; a body without a BEGIN line is
found from its first line on, or backwards from its END line; the other lines may
hold a whole key of their own. What the pass says of a text is the list of the
spans it replaces.
-/
namespace Pem

open Regex PyText

section

variable (text : List Char) (model : List PemLine)

/-! ## Kinds inside a block -/

/-- The kind that is found by taking words off the front of a line, if a body token is found so. -/
def strippedKind (kind : LineKind) : Nat → Bool → List Char → LineKind
  | 0, armorShape, _ => if armorShape then .armor else kind
  | fuel + 1, armorShape, rest =>
    match splitFirst rest with
    | none => if armorShape then .armor else kind
    | some (_, after) =>
      let (_, rest) := trimPemSegment after
      if rest = [] then if armorShape then .armor else kind
      else if isArmorHeader rest then strippedKind kind fuel true rest
      else if isBodyToken rest then bodyKind rest
      else strippedKind kind fuel armorShape rest

/-- `effective_kind`: inside a block a line gets one more chance without its log prefix. -/
def effectiveKind (line : PemLine) : LineKind :=
  if line.kind ≠ .other ∧ line.kind ≠ .armor then line.kind
  else
    let rest := normalizeEscapedSolidus (slice text line.redactStart line.contentEnd)
    let rest := stripBy isHorizontal (rest.dropWhile fun c => c = '>' || c = '|' || c = '-')
    let head := rest.takeWhile (· ≠ ':')
    let colonAfter := stripBy isHorizontal (rest.drop (head.length + 1))
    if ':' ∈ rest ∧ 2 ≤ head.length ∧ head.length ≤ 32 ∧ isBodyToken colonAfter then bodyKind colonAfter
    else if isBodyChars rest then if looksLikeEnglishToken rest then .lenientB64 else bodyKind rest
    else
      let tokens := split rest
      if 3 ≤ tokens.length ∧ tokens.all isBodyToken ∧ (tokens.any fun token => 8 ≤ token.length) ∧
        tokens.any hasEvidence then
        .strictB64
      else strippedKind line.kind 6 (isArmorHeader rest) rest

def kindAt (j : Nat) : Option LineKind := model[j]?.map PemLine.kind

def effectiveKindAt (j : Nat) : Option LineKind := model[j]?.map (effectiveKind text)

/-! ## The passes -/

structure ScanState where
  i : Nat
  /-- The lines that a backward pass may still look at. -/
  backFloor : Nat
  cursor : Nat
  spans : List (Nat × Nat)
deriving DecidableEq, Repr

def ScanState.emit (s : ScanState) (start stop : Nat) : ScanState :=
  { s with cursor := stop, spans := s.spans ++ [(start, stop)] }

def ScanState.goTo (s : ScanState) (i : Nat) : ScanState := { s with i := i }

/-- Past at most some armor headers. -/
def pastArmor : Nat → Nat → Nat
  | 0, j => j
  | limit + 1, j => if effectiveKindAt text model j = some .armor then pastArmor limit (j + 1) else j

def pastBlank : Nat → Nat → Nat
  | 0, j => j
  | fuel + 1, j => if kindAt model j = some .blank then pastBlank fuel (j + 1) else j

/-- A line of a few short words, where the prefix of a blank line is all that is left. -/
def isBlankRemnant (j : Nat) : Bool :=
  match model[j]? with
  | none => false
  | some line =>
    let tokens := split (slice text line.redactStart line.contentEnd)
    line.kind = .other ∧ 0 < tokens.length ∧ tokens.length ≤ 6 ∧ (tokens.all fun token => token.length ≤ 12) ∧
      effectiveKind text line = .other

/-- Where the body behind a BEGIN line starts. -/
def bodyStart (j : Nat) : Nat :=
  let j := pastBlank model model.length j
  if isBlankRemnant text model j then pastBlank model model.length (j + 1) else j

structure BodyScan where
  sawB64 : Bool
  sawStrictRun : Bool
  lastEvidence : Nat
  pendingShorts : List (Nat × Bool)
deriving DecidableEq, Repr

/-- The last word of a line without its quote marks has a length that base64 can have. -/
def isAlignedShort (line : PemLine) : Bool :=
  let segment := stripBy isHorizontal (slice text line.redactStart line.contentEnd)
  let token := (split segment).getLast?.getD segment
  (token.dropWhile fun c => c = '>' || c = '|' || c = '-').length % 4 = 0

/-- The lines of key material from a line on, and what they prove. -/
def scanBody : Nat → Nat → BodyScan → Nat × BodyScan
  | 0, j, b => (j, b)
  | fuel + 1, j, b =>
    match model[j]? with
    | none => (j, b)
    | some line =>
      match effectiveKind text line with
      | .strictB64 => scanBody fuel (j + 1) { b with sawB64 := true, sawStrictRun := true, lastEvidence := j }
      | .prefixedB64 => scanBody fuel (j + 1) { b with sawB64 := true, sawStrictRun := true, lastEvidence := j }
      | .shortB64 =>
        scanBody fuel (j + 1) (if b.sawStrictRun then { b with sawB64 := true, lastEvidence := j }
          else { b with pendingShorts := b.pendingShorts ++ [(j, isAlignedShort text line)] })
      | .lenientB64 => scanBody fuel (j + 1) (if b.sawStrictRun then b else { b with pendingShorts := [] })
      | _ => (j, b)

/-- Two short lines or more count when they could be a body that was wrapped again. -/
def BodyScan.finish (b : BodyScan) : BodyScan :=
  if !b.sawStrictRun ∧ 2 ≤ b.pendingShorts.length ∧ b.pendingShorts.all Prod.snd then
    { b with sawB64 := true, lastEvidence := (b.pendingShorts.getLast?.map Prod.fst).getD 0 }
  else b

def isBodyLine (kind : LineKind) : Bool := kind = .strictB64 || kind = .shortB64 || kind = .prefixedB64

def isEndLine (kind : LineKind) : Bool := kind = .endMarker || kind = .endInline || kind = .endLoose

def beginStep (s : ScanState) (line : PemLine) : ScanState :=
  let afterArmor := pastArmor text model 5 (s.i + 1)
  let start := bodyStart text model afterArmor
  if s.i + 1 < afterArmor ∧ ¬ (effectiveKindAt text model start).any fun kind =>
      isBodyLine kind || kind = .lenientB64 || isEndLine kind then
    s.goTo (s.i + 1)
  else
    let (j, body) := scanBody text model model.length start ⟨false, false, 0, []⟩
    let body := body.finish
    match model[j]?.filter fun stop => isEndLine stop.kind with
    | some stop =>
      (s.emit line.redactStart (if stop.kind = .endMarker then stop.contentEnd else stop.markerEnd.getD 0)).goTo (j + 1)
    | none =>
      if body.sawB64 then
        (s.emit line.redactStart (model[body.lastEvidence]?.map PemLine.contentEnd |>.getD 0)).goTo
          (body.lastEvidence + 1)
      else
        match matchText beginRe [] (text.drop line.redactStart) with
        | some marker =>
          if line.redactStart + marker.stop < line.contentEnd ∧
              (search inlineRunRe [] (slice text (line.redactStart + marker.stop) line.contentEnd)).isSome then
            (s.emit line.redactStart line.contentEnd).goTo (s.i + 1)
          else s.goTo (s.i + 1)
        | none => s.goTo (s.i + 1)

/-- The last line of a run of key material, and whether one of its lines is a full one. -/
def runEnd : Nat → Nat → Bool → Nat × Bool
  | 0, j, strict => (j, strict)
  | fuel + 1, j, strict =>
    match kindAt model (j + 1) with
    | some kind => if isBodyLine kind then runEnd fuel (j + 1) (strict || kind ≠ .shortB64) else (j, strict)
    | none => (j, strict)

def orphanStep (s : ScanState) (line : PemLine) : ScanState :=
  let (j, strict) := runEnd model model.length s.i (line.kind ≠ .shortB64)
  let isKey := strict || s.i < j
  match model[j + 1]? with
  | some stop =>
    if isKey ∧ (stop.kind = .endMarker ∨ stop.kind = .endInline) then
      (s.emit line.redactStart (if stop.kind = .endMarker then stop.contentEnd else stop.markerEnd.getD 0)).goTo (j + 2)
    else if isKey ∧ stop.kind = .beginMarker ∧ stop.markerEnd.isSome then
      (s.emit line.redactStart (stop.markerEnd.getD 0)).goTo (j + 1)
    else s.goTo (j + 1)
  | none => s.goTo (j + 1)

/-- The lines of key material before a line, from the nearest down to the floor. -/
def scanBack (floor : Nat) : Nat → Bool → Option Nat → Bool × Option Nat
  | 0, saw, first => (saw, first)
  | back + 1, saw, first =>
    if back < floor then (saw, first)
    else
      match effectiveKindAt text model back with
      | some .strictB64 => scanBack floor back true (some back)
      | some .prefixedB64 => scanBack floor back true (some back)
      | some .shortB64 => scanBack floor back saw (some back)
      | some .lenientB64 => scanBack floor back saw first
      | _ => (saw, first)

/-- A key that shares its line with the END marker. -/
def oneLineStep (s : ScanState) (line : PemLine) : ScanState :=
  match search endRe [] (slice text line.redactStart line.contentEnd) with
  | none => s.goTo (s.i + 1)
  | some stop =>
    let probe := slice text line.redactStart (line.redactStart + stop.start)
    match (finditer inlineRunRe probe).getLast? with
    | none => s.goTo (s.i + 1)
    | some run =>
      if isInlineSpan (probe.drop run.stop) then
        (s.emit (line.redactStart + run.start) (line.redactStart + stop.stop)).goTo (s.i + 1)
      else s.goTo (s.i + 1)

def endStep (s : ScanState) (line : PemLine) : ScanState :=
  let (saw, first) := scanBack text model s.backFloor s.i false none
  let s := { s with backFloor := max s.backFloor (s.i + 1) }
  match saw, first with
  | true, some first =>
    let start := (model[first]?.map PemLine.redactStart).getD 0
    (s.emit (max start s.cursor)
      (if line.kind = .endMarker then line.contentEnd else line.markerEnd.getD 0)).goTo (s.i + 1)
  | _, _ => if line.kind = .endInline then oneLineStep text s line else s.goTo (s.i + 1)

/-- The keys in one line, from at most eight BEGIN markers. -/
def inlineKeys (contentEnd : Nat) : Nat → Nat → ScanState → ScanState
  | 0, _, s => s
  | fuel + 1, start, s =>
    if start < contentEnd then
      match search beginRe [] (slice text start contentEnd) with
      | none => s
      | some b =>
        let opened := start + b.stop
        match search endRe [] (slice text opened contentEnd) with
        | none => inlineKeys contentEnd fuel opened s
        | some e =>
          let body := slice text opened (opened + e.start)
          if isInlineSpan body ∧ (body = [] ∨ (search inlineRunRe [] body).isSome) then
            inlineKeys contentEnd fuel (opened + e.stop) (s.emit (start + b.start) (opened + e.stop))
          else inlineKeys contentEnd fuel opened s
    else s

def otherStep (s : ScanState) (line : PemLine) : ScanState :=
  if hasPrivateKey (slice text line.lineStart line.contentEnd) then
    (inlineKeys text line.contentEnd 8 line.lineStart s).goTo (s.i + 1)
  else s.goTo (s.i + 1)

/-- One round of the loop. -/
def step (s : ScanState) (line : PemLine) : ScanState :=
  match line.kind with
  | .beginMarker => beginStep text model s line
  | .strictB64 => orphanStep model s line
  | .shortB64 => orphanStep model s line
  | .prefixedB64 => orphanStep model s line
  | .endMarker => endStep text model s line
  | .endInline => endStep text model s line
  | .endLoose => oneLineStep text s line
  | .other => otherStep text s line
  | _ => s.goTo (s.i + 1)

def scan : Nat → ScanState → ScanState
  | 0, s => s
  | fuel + 1, s =>
    match model[s.i]? with
    | none => s
    | some line => scan fuel (step text model s line)

end

/-- The spans that are replaced in a text. -/
def privateKeySpans (text : List Char) : List (Nat × Nat) :=
  if contains "private key-----".toList (lower text) then
    (scan text (pemLineModel text) (pemLineModel text).length ⟨0, 0, 0, []⟩).spans
  else []

/-- The text from a position on, with the spans replaced. -/
def replaceSpans (text : List Char) (placeholder : List Char → List Char) : Nat → List (Nat × Nat) → List Char
  | cursor, [] => text.drop cursor
  | cursor, (start, stop) :: spans =>
    slice text cursor start ++ placeholder (slice text start stop) ++ replaceSpans text placeholder stop spans

def redactPrivateKeyBlocksWith (text : List Char) (placeholder : List Char → List Char) : List Char :=
  replaceSpans text placeholder 0 (privateKeySpans text)

end Pem
