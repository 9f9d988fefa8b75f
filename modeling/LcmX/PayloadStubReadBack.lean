import LcmX.PayloadStubRefs

/-!
# Stubs can be read back

A stub is a list of fields with the reference behind them. Its name is one that this
program mints, and its length stays within the limit of the readers. What can go wrong is the
id of a tool call: it goes into the name of the file as it is, but for two characters.
-/
namespace PayloadStub

open Regex PyText Ingest

/-! ## The name of a file -/

theorem digitText_decimal {n : Nat} (digits : Fin n → Fin 10) : ∀ c ∈ digitText digits, isDecimal c = true := by
  intro c hc
  obtain ⟨d, -, rfl⟩ := List.mem_map.mp hc
  exact (by decide : ∀ d : Fin 10, isDecimal (Char.ofNat (48 + d.val)) = true) d

theorem hexText_hex (bytes : List UInt8) : ∀ c ∈ hexText bytes, isHexChar c = true := by
  have hdigit : ∀ n < 16, isHexChar (Json.hexDigit n) = true := by decide
  intro c hc
  obtain ⟨b, -, hc⟩ := List.mem_flatMap.mp hc
  simp only [List.mem_cons, List.not_mem_nil, or_false] at hc
  have hb := b.toNat_lt
  rcases hc with rfl | rfl
  · exact hdigit _ (by omega)
  · exact hdigit _ (by omega)

theorem length_hexText (bytes : List UInt8) : (hexText bytes).length = 2 * bytes.length := by
  induction bytes with
  | nil => rfl
  | cons b bytes ih =>
    rw [hexText, List.flatMap_cons, List.length_append, ← hexText, ih]
    simp only [List.length_cons, List.length_nil]
    omega

theorem toDigits_hex (n : Nat) : ∀ c ∈ Nat.toDigits 16 n, isHexChar c = true := by
  have hdigit : ∀ n < 16, isHexChar (Nat.digitChar n) = true := by decide
  induction n using Nat.strong_induction_on with
  | _ n ih =>
    intro c hc
    rw [Nat.toDigits_eq_if (by decide)] at hc
    split at hc
    · rw [List.mem_singleton.mp hc]
      exact hdigit n (by omega)
    · rcases List.mem_append.mp hc with hc | hc
      · exact ih _ (Nat.div_lt_self (by omega) (by decide)) c hc
      · rw [List.mem_singleton.mp hc]
        exact hdigit _ (Nat.mod_lt n (by decide))

theorem length_contentDigestPrefix (host : Host) (content : Text) : (contentDigestPrefix host content).length = 12 := by
  rw [contentDigestPrefix, List.length_take, length_hexText, (host.sha256 (encode content)).property]
  rfl

section

variable {host : Host} {a : Attempt} {kind role toolCallId content : Text}

theorem toolCallStub_ne_nil (toolCallId : Text) : toolCallStub toolCallId ≠ [] := by
  rw [toolCallStub]
  cases toolCallId with
  | nil => simp
  | cons c w => simp

theorem nameStub_ne_nil (kind role toolCallId : Text) : nameStub kind role toolCallId ≠ [] := by
  rw [nameStub]
  split
  · exact toolCallStub_ne_nil toolCallId
  · simp

theorem payloadFileName_slash : '/' ∉ payloadFileName host a kind role toolCallId content := by
  intro h
  rcases payloadFileName_cases h with hstub | hname
  · exact (stubChar_facts hstub).2 rfl
  · exact nameStub_slash kind role toolCallId _ hname rfl

theorem payloadFileName_long : 2 ≤ (payloadFileName host a kind role toolCallId content).length := by
  have hsuffix : ".json".toList.length = 5 := by decide
  rw [payloadFileName, List.length_append, hsuffix]
  omega

theorem payloadFileName_readable (h : ReadableStub kind toolCallId) :
    ∀ c ∈ payloadFileName host a kind role toolCallId content, isReadable c = true := by
  intro c hc
  rcases payloadFileName_cases hc with hstub | hname
  · exact isReadable_of_stub hstub
  · exact nameStub_readable h role c hname

theorem not_newline_of_readable {c : Char} (h : isReadable c = true) : c ≠ '\n' := by
  rintro rfl
  revert h
  decide

theorem isGenerated_payloadFileName (h : ReadableStub kind toolCallId) :
    isGeneratedPayloadRefName (payloadFileName host a kind role toolCallId content) = true := by
  have hline : ∀ c ∈ nameStub kind role toolCallId, decide (c ≠ '\n') = true :=
    fun c hc => decide_eq_true (not_newline_of_readable (nameStub_readable h role c hc))
  have hsign : Accepts (.char (· = '_')) ['_'] := Accepts.char rfl
  have hdate : Accepts (times 8 (.char isDecimal)) (digitText a.date) :=
    Accepts.rep _ (digitText_decimal _) (by simp [digitText]) (by simp [digitText])
  have hclock : Accepts (times 6 (.char isDecimal)) (digitText a.clock) :=
    Accepts.rep _ (digitText_decimal _) (by simp [digitText]) (by simp [digitText])
  have hname : Accepts (plus (.char (· ≠ '\n'))) (nameStub kind role toolCallId) :=
    Accepts.rep _ hline (List.length_pos_of_ne_nil (nameStub_ne_nil _ _ _)) (by simp)
  have hdigest : Accepts (times 12 (.char isHexChar)) (contentDigestPrefix host content) :=
    Accepts.rep _ (fun c hc => hexText_hex _ c (List.mem_of_mem_take hc)) (length_contentDigestPrefix host content).ge
      (fun n hn => (length_contentDigestPrefix host content).trans_le (Option.some.inj hn).le)
  have htime : Accepts (plus (.char isHexChar)) (Nat.toDigits 16 a.timeNs) :=
    Accepts.rep _ (toDigits_hex _) (List.length_pos_of_ne_nil Nat.toDigits_ne_nil) (by simp)
  have hall := hdate.seq (hsign.seq
    (hclock.seq (hsign.seq (hname.seq (hsign.seq (hdigest.seq (hsign.seq (htime.seq (Accepts.lit ".json".toList)))))))))
  have hmatch := hall.fullmatch
  have htext : digitText a.date ++ (['_'] ++ (digitText a.clock ++ (['_'] ++ (nameStub kind role toolCallId ++ (['_'] ++
      (contentDigestPrefix host content ++ (['_'] ++ (Nat.toDigits 16 a.timeNs ++ ".json".toList)))))))) =
      payloadFileName host a kind role toolCallId content := by
    simp [payloadFileName]
  rw [htext] at hmatch
  have hne : payloadFileName host a kind role toolCallId content ≠ [] := List.ne_nil_of_length_pos
      (by have := @payloadFileName_long host a kind role toolCallId content; omega)
  rw [isGeneratedPayloadRefName, pathName_of_not_mem payloadFileName_slash payloadFileName_long]
  exact decide_eq_true ⟨hne, hmatch⟩

end

/-! ## The fields of a stub -/

def joinFields : List Text → Text
  | [] => []
  | [field] => field
  | field :: next :: fields => field ++ ';' :: joinFields (next :: fields)

/-- The beginning of a field that is no reference. -/
def isLabel : Text → Bool
  | ' ' :: c :: d :: e :: rest =>
    !isSpace c && decide ([c, d, e] ≠ ['r', 'e', 'f']) && (c :: d :: e :: rest).all isPlain
  | _ => false

/-- A label with a value. -/
structure IsField (field : Text) : Prop where
  start : ∃ c d e w, field = ' ' :: c :: d :: e :: w ∧ isSpace c = false ∧ [c, d, e] ≠ ['r', 'e', 'f']
  plain : ∀ c ∈ field, isPlain c = true

theorem isField {label value : Text} (hlabel : isLabel label = true)
    (hvalue : ∀ c ∈ value, isPlain c = true) : IsField (label ++ value) := by
  unfold isLabel at hlabel
  split at hlabel
  · rename_i c d e rest
    simp only [Bool.and_eq_true, Bool.not_eq_true', decide_eq_true_eq, List.all_eq_true] at hlabel
    obtain ⟨⟨hspace, hdiffers⟩, hplain⟩ := hlabel
    refine ⟨⟨c, d, e, rest ++ value, rfl, hspace, hdiffers⟩, fun x hx => ?_⟩
    rcases List.mem_append.mp hx with hx | hx
    · rcases List.mem_cons.mp hx with rfl | hx
      · decide
      · exact hplain x hx
    · exact hvalue x hx
  · cases hlabel

theorem IsField.not_mem {field : Text} (h : IsField field) : ';' ∉ field :=
  fun hmem => by simpa [isPlain] using h.plain _ hmem

theorem separated_joinFields : ∀ {fields : List Text}, (∀ field ∈ fields, IsField field) →
    Separated (joinFields fields) := by
  intro fields
  induction fields with
  | nil => exact fun _ => separated_of_not_mem List.not_mem_nil
  | cons field fields ih =>
    intro h
    have hfield := h field List.mem_cons_self
    cases fields with
    | nil => exact separated_of_not_mem hfield.not_mem
    | cons next fields =>
      have hrest := ih fun f hf => h f (List.mem_cons_of_mem _ hf)
      obtain ⟨c, d, e, w, hnext, hspace, hdiffers⟩ := (h next (by simp)).start
      have hjoin : ∃ w', joinFields (next :: fields) = ' ' :: c :: d :: e :: w' := by
        cases fields with
        | nil => exact ⟨w, hnext⟩
        | cons other fields => exact ⟨w ++ ';' :: joinFields (other :: fields), by rw [joinFields, hnext]; rfl⟩
      obtain ⟨w', hw'⟩ := hjoin
      rw [joinFields, hw']
      exact Separated.cons hfield.not_mem hspace hdiffers (hw' ▸ hrest)

theorem joinFields_line : ∀ {fields : List Text}, (∀ field ∈ fields, IsField field) →
    ∀ c ∈ joinFields fields, c ≠ '\n' := by
  intro fields
  induction fields with
  | nil => simp [joinFields]
  | cons field fields ih =>
    intro h c hc
    have hfield : ∀ c ∈ field, c ≠ '\n' := by
      intro c hc
      have hplain := (h field List.mem_cons_self).plain c hc
      simp only [isPlain, Bool.and_eq_true, decide_eq_true_eq] at hplain
      exact hplain.2
    cases fields with
    | nil => exact hfield c hc
    | cons next fields =>
      rw [joinFields, List.mem_append, List.mem_cons] at hc
      rcases hc with hc | rfl | hc
      · exact hfield c hc
      · decide
      · exact ih (fun f hf => h f (List.mem_cons_of_mem _ hf)) c hc

/-! ## The values of the fields -/

variable {w : Text} {summary : Summary}

theorem plain_of_value (h : ∀ c ∈ w, isValueChar c = true) : ∀ c ∈ w, isPlain c = true := by
  intro c hc
  obtain ⟨hsemicolon, -, -, hspace⟩ := valueChar_facts (h c hc)
  have hline : c ≠ '\n' := by
    rintro rfl
    revert hspace
    decide
  simp [isPlain, hsemicolon, hline]

theorem plain_append {v : Text} (hv : ∀ c ∈ v, isPlain c = true) (hw : ∀ c ∈ w, isPlain c = true) :
    ∀ c ∈ v ++ w, isPlain c = true :=
  fun c hc => (List.mem_append.mp hc).elim (hv c) (hw c)

theorem plain_metadata (value : Text) : ∀ c ∈ placeholderMetadata value, isPlain c = true :=
  plain_of_value (placeholderMetadata_value value)

theorem plain_digits (n : Nat) : ∀ c ∈ Nat.toDigits 10 n, isPlain c = true := plain_of_value (toDigits_value n)

theorem plain_of_readable (h : ∀ c ∈ w, isReadable c = true) : ∀ c ∈ w, isPlain c = true := by
  intro c hc
  have hline := not_newline_of_readable (h c hc)
  have hsemicolon : c ≠ ';' := by
    rintro rfl
    exact absurd (h _ hc) (by decide)
  simp [isPlain, hsemicolon, hline]

/-! ## The shapes of a stub -/

section

variable (summary : Summary)

def Summary.countFields : List Text :=
  [" chars=".toList ++ Nat.toDigits 10 summary.contentChars, " bytes=".toList ++ Nat.toDigits 10 summary.contentBytes]

def Summary.readField : Text := " read it with lcm_expand(externalized_ref=\"".toList ++ (summary.ref ++ "\")".toList)

def Summary.payloadFields (kind : Text) : List Text :=
  [" kind=".toList ++ kind, " role=".toList ++ placeholderMetadata (orMark summary.role)] ++ summary.countFields

def Summary.toolFields (tool : Text) : List Text :=
  [" tool=".toList ++ tool, " tool_call_id=".toList ++ placeholderMetadata (orMark summary.toolCallId)] ++
    summary.countFields ++ [summary.readField]

def previewField (preview : Text) : Text := " preview=\"".toList ++ (preview ++ ['"'])

theorem payloadHead_eq (kind : Text) : summary.payloadHead kind = opening false ++
    (joinFields (summary.payloadFields kind) ++ [';', ' ']) := by
  unfold Summary.payloadHead
  simp [opening, Summary.payloadFields, Summary.countFields, joinFields]

theorem readWith_eq : ' ' :: summary.readWith = summary.readField ++
    (';' :: ' ' :: ("ref=".toList ++ (summary.ref ++ [']']))) := by
  unfold Summary.readWith Summary.readField
  simp

theorem joinFields_append : ∀ (fields : List Text) (field : Text), fields ≠ [] →
    joinFields (fields ++ [field]) = joinFields fields ++ ';' :: field := by
  intro fields field
  induction fields with
  | nil => exact fun h => absurd rfl h
  | cons first fields ih =>
    intro _
    cases fields with
    | nil => rfl
    | cons next fields =>
      have hrest := ih (List.cons_ne_nil _ _)
      rw [List.cons_append] at hrest
      rw [List.cons_append, List.cons_append, joinFields, hrest, joinFields, List.append_assoc, List.cons_append]

theorem payloadStub_eq (kind : Text) : summary.payloadStub kind = stubText false
    (joinFields (summary.payloadFields kind)) summary.ref := by
  rw [Summary.payloadStub, payloadHead_eq, stubText]
  simp

theorem reading_eq (kind : Text) : summary.payloadHead kind ++ summary.readWith =
    stubText false (joinFields (summary.payloadFields kind ++ [summary.readField])) summary.ref := by
  rw [joinFields_append _ _ (by simp [Summary.payloadFields]), payloadHead_eq, stubText]
  simp only [List.append_assoc, List.cons_append, List.nil_append, readWith_eq]

theorem previewed_eq (kind preview : Text) :
    summary.payloadHead kind ++ "preview=\"".toList ++ preview ++ "\"; ".toList ++ summary.readWith =
      stubText false (joinFields
      (summary.payloadFields kind ++ [previewField preview] ++ [summary.readField])) summary.ref := by
  have hsign : "\"; ".toList = ['"', ';', ' '] := by decide
  have hpreview : " preview=\"".toList = ' ' :: "preview=\"".toList := by decide
  rw [joinFields_append _ _ (by simp), joinFields_append _ _ (by simp [Summary.payloadFields]),
    payloadHead_eq, stubText, hsign]
  unfold previewField
  rw [hpreview]
  simp only [List.append_assoc, List.cons_append, List.nil_append, readWith_eq]

theorem toolStub_eq : ∃ tool, (∀ c ∈ tool, isPlain c = true) ∧
    summary.toolStub = stubText true (joinFields (summary.toolFields tool)) summary.ref := by
  have hstub : ∃ n, summary.toolStub = "[Externalized tool output: tool=".toList ++
    (placeholderMetadata (orMark summary.toolName)).take n ++
      ("; tool_call_id=".toList ++ placeholderMetadata (orMark summary.toolCallId) ++
        "; chars=".toList ++ Nat.toDigits 10 summary.contentChars ++
        "; bytes=".toList ++ Nat.toDigits 10 summary.contentBytes ++ "; ".toList ++ summary.readWith) := ⟨_, rfl⟩
  obtain ⟨n, hstub⟩ := hstub
  refine ⟨(placeholderMetadata (orMark summary.toolName)).take n,
    fun c hc => plain_metadata (orMark summary.toolName) c (List.mem_of_mem_take hc), ?_⟩
  rw [hstub]
  unfold Summary.toolFields Summary.countFields
  rw [joinFields_append _ _ (by simp), stubText]
  simp [opening, joinFields, readWith_eq]

/-- The stub of a payload, by what there is room for. -/
inductive Shape (kind stub : Text) : Prop
  | tool (hstub : stub = summary.toolStub)
  | plain (hstub : stub = summary.payloadStub kind)
  | reading (hstub : stub = summary.payloadHead kind ++ summary.readWith) (hshort : stub.length ≤ 512)
  | previewed (preview : Text) (hpreview : ∀ c ∈ preview, isPlain c = true)
      (hstub : stub = summary.payloadHead kind ++ "preview=\"".toList ++ preview ++ "\"; ".toList ++
        summary.readWith) (hshort : stub.length ≤ 512)

end

section

variable {host : Host} {summary : Summary} {kind stub content : Text}

theorem buildPlain_shape : Shape summary kind (buildPlain summary kind) := by
  rw [buildPlain]
  split
  · exact .plain rfl
  · exact .tool rfl

/-- A stub with a preview has the shape that is read back. -/
theorem buildPreviewed_shape (h : buildPreviewed host summary kind content = .ok stub) : Shape summary kind stub := by
  rw [buildPreviewed] at h
  split at h
  · rename_i hroom
    split at h
    · rename_i preview hpreview
      obtain rfl := Outcome.ok.inj h
      have hmin : rawPayloadPreviewMinChars = 40 := rfl
      have hsigns : "preview=\"\"; ".toList.length = 12 := by decide
      have hopen : "preview=\"".toList.length = 9 := by decide
      have hclose : "\"; ".toList.length = 3 := by decide
      have hmax : placeholderMaxChars = 512 := rfl
      rw [hmin, hsigns, hmax] at hroom
      rw [hsigns, hmax] at hpreview
      have hfits := rawPayloadPreview_fits (by omega) hpreview
      refine .previewed preview hfits.plain rfl ?_
      have hshort := hfits.short
      simp only [List.length_append, hopen, hclose]
      omega
    · cases h
    · split at h
      · cases h
      · obtain rfl := Outcome.ok.inj h
        exact buildPlain_shape
  · split at h
    · rename_i hless
      obtain rfl := Outcome.ok.inj h
      refine .reading rfl ?_
      rw [List.length_append]
      exact hless.le
    · obtain rfl := Outcome.ok.inj h
      exact buildPlain_shape

/-- The kind of a summary as its stub shows it. -/
def Summary.shownKind (summary : Summary) : Text :=
  placeholderMetadata (if summary.kind = [] then toolResult else summary.kind)

theorem buildExternalizedPlaceholder_shape (h : buildExternalizedPlaceholder host summary content = .ok stub) :
    Shape summary summary.shownKind stub := by
  rw [buildExternalizedPlaceholder, ← Summary.shownKind] at h
  by_cases hmedia : summary.shownKind = mediaPayload ∧ content ≠ []
  · rw [if_pos hmedia] at h
    cases htext : host.mediaPayloadPreviewContent content with
    | ok text =>
      simp only [htext] at h
      split at h
      · exact buildPreviewed_shape h
      · obtain rfl := Outcome.ok.inj h
        exact buildPlain_shape
    | memoryError => simp [htext] at h
    | raised =>
      simp only [htext, Outcome.ok.injEq] at h
      exact h ▸ buildPlain_shape
  · rw [if_neg hmedia] at h
    split at h
    · exact buildPreviewed_shape h
    · obtain rfl := Outcome.ok.inj h
      exact buildPlain_shape

/-! ## The length of a stub -/

theorem length_toDigits {n : Nat} (h : n < 10 ^ 20) : (Nat.toDigits 10 n).length ≤ 20 :=
  (Nat.length_toDigits_le_iff (by decide) (by decide)).mpr h

/-- The parts of a summary have the sizes that a machine and the names of files allow. -/
structure Sized (summary : Summary) : Prop where
  ref : summary.ref.length ≤ 113
  chars : summary.contentChars < 10 ^ 20
  bytes : summary.contentBytes < 10 ^ 20

theorem length_payloadStub (hs : Sized summary) (hkind : kind.length ≤ 120) :
    (summary.payloadStub kind).length ≤ 512 := by
  have hchars := length_toDigits hs.chars
  have hbytes := length_toDigits hs.bytes
  have href := hs.ref
  have hrole := length_placeholderMetadata (orMark summary.role)
  unfold Summary.payloadStub Summary.payloadHead
  simp
  omega

theorem length_toolStub (hs : Sized summary) : summary.toolStub.length ≤ 512 := by
  have hchars := length_toDigits hs.chars
  have hbytes := length_toDigits hs.bytes
  have href := hs.ref
  have hid := length_placeholderMetadata (orMark summary.toolCallId)
  have hmax : placeholderMaxChars = 512 := rfl
  have hname : placeholderToolNameMaxChars = 64 := rfl
  unfold Summary.toolStub Summary.readWith
  simp [hmax, hname]
  omega

end

/-! ## Reading a stub back -/

/-- What a stub promises: the readers accept it, its file is the only reference in it, and the name
is one of this program. -/
def ReadsBack (r : Externalized) : Prop :=
  isExternalizedPlaceholder r.placeholder = true ∧ extractExternalizedRefs r.placeholder = [r.ref] ∧
    isGeneratedPayloadRefName r.ref = true

theorem readsBack_stub {tool : Bool} {fields : List Text} {ref : Text} (hfields : ∀ field ∈ fields, IsField field)
    (href : ∀ c ∈ ref, isReadable c = true) (hslash : '/' ∉ ref) (hlong : 2 ≤ ref.length)
    (hshort : (stubText tool (joinFields fields) ref).length ≤ 512) :
    isExternalizedPlaceholder (stubText tool (joinFields fields) ref) = true ∧
      extractExternalizedRefs (stubText tool (joinFields fields) ref) = [ref] := by
  have hchars : ∀ c ∈ ref, isReferenceChar c = true := by
    intro c hc
    have hreadable := href c hc
    rw [isReadable, Bool.and_eq_true] at hreadable
    exact hreadable.1
  have hne : ref ≠ [] := List.ne_nil_of_length_pos (by omega)
  exact ⟨isExternalizedPlaceholder_stub (joinFields_line hfields) (separated_joinFields hfields) hchars hne hshort,
    extract_stub (joinFields_line hfields) (separated_joinFields hfields) href hslash hlong⟩

theorem countFields_fields (summary : Summary) : ∀ field ∈ summary.countFields, IsField field := by
  intro field hfield
  simp only [Summary.countFields, List.mem_cons, List.not_mem_nil, or_false] at hfield
  rcases hfield with rfl | rfl
  · exact isField (by decide) (plain_digits _)
  · exact isField (by decide) (plain_digits _)

theorem payloadFields_fields (summary : Summary) {kind : Text} (hkind : ∀ c ∈ kind, isPlain c = true) :
    ∀ field ∈ summary.payloadFields kind, IsField field := by
  intro field hfield
  rcases List.mem_append.mp hfield with hfield | hfield
  · simp only [List.mem_cons, List.not_mem_nil, or_false] at hfield
    rcases hfield with rfl | rfl
    · exact isField (by decide) hkind
    · exact isField (by decide) (plain_metadata _)
  · exact countFields_fields summary field hfield

theorem readField_field (href : ∀ c ∈ summary.ref, isReadable c = true) : IsField summary.readField :=
  isField (by decide) (plain_append (plain_of_readable href) (forall_mem_of_all (by decide)))

theorem toolFields_fields {tool : Text} (htool : ∀ c ∈ tool, isPlain c = true)
    (href : ∀ c ∈ summary.ref, isReadable c = true) :
    ∀ field ∈ summary.toolFields tool, IsField field := by
  intro field hfield
  rcases List.mem_append.mp hfield with hfield | hfield
  · rcases List.mem_append.mp hfield with hfield | hfield
    · simp only [List.mem_cons, List.not_mem_nil, or_false] at hfield
      rcases hfield with rfl | rfl
      · exact isField (by decide) htool
      · exact isField (by decide) (plain_metadata _)
    · exact countFields_fields summary field hfield
  · rw [List.mem_singleton.mp hfield]
    exact readField_field href

/-- A stub of any shape can be read back. -/
theorem Shape.readsBack {kind stub : Text} (h : Shape summary kind stub) (hs : Sized summary)
    (hkind : ∀ c ∈ kind, isPlain c = true)
    (hlength : kind.length ≤ 120) (href : ∀ c ∈ summary.ref, isReadable c = true)
    (hslash : '/' ∉ summary.ref) (hlong : 2 ≤ summary.ref.length) :
    isExternalizedPlaceholder stub = true ∧ extractExternalizedRefs stub = [summary.ref] := by
  have hpayload := payloadFields_fields summary hkind
  have hread := readField_field href
  cases h with
  | tool hstub =>
    subst hstub
    have hshort := length_toolStub hs
    obtain ⟨tool, htool, heq⟩ := toolStub_eq summary
    rw [heq] at hshort ⊢
    exact readsBack_stub (toolFields_fields htool href) href hslash hlong hshort
  | plain hstub =>
    subst hstub
    have hshort := length_payloadStub hs hlength
    rw [payloadStub_eq] at hshort ⊢
    exact readsBack_stub hpayload href hslash hlong hshort
  | reading hstub hshort =>
    subst hstub
    rw [reading_eq] at hshort ⊢
    refine readsBack_stub (fun field hfield => ?_) href hslash hlong hshort
    rcases List.mem_append.mp hfield with hfield | hfield
    · exact hpayload field hfield
    · rw [List.mem_singleton.mp hfield]
      exact hread
  | previewed preview hpreview hstub hshort =>
    subst hstub
    rw [previewed_eq] at hshort ⊢
    refine readsBack_stub (fun field hfield => ?_) href hslash hlong hshort
    simp only [List.mem_append, List.mem_singleton] at hfield
    rcases hfield with (hfield | rfl) | rfl
    · exact hpayload field hfield
    · exact isField (by decide) (plain_append hpreview (forall_mem_of_all (by decide)))
    · exact hread

section

variable {host : Host} {a : Attempt} {config : Config} {existing : Option Summary}
  {request : Request} {r : Externalized}

/-- A file that a call has written: its name, and the stub of its summary. -/
theorem written_spec (h : maybeExternalizePayload host a config existing request = .ok (some r))
    (hwritten : r.written = true) :
    r.ref = payloadFileName host a request.kind request.role request.toolCallId request.content ∧
      buildExternalizedPlaceholder host (request.summary r.ref) request.content = .ok r.placeholder := by
  simp only [maybeExternalizePayload] at h
  by_cases henabled : config.enabled = true
  · rw [if_neg (not_not_intro henabled)] at h
    by_cases hsmall : request.content = [] ∨
      ((request.content.length : Int) ≤ max 1 config.thresholdChars ∧ ¬ request.force = true)
    · rw [if_pos hsmall] at h
      cases h
    · rw [if_neg hsmall] at h
      by_cases hdirectory : a.directory = true
      · rw [if_neg (not_not_intro hdirectory)] at h
        cases existing with
        | some existing =>
          obtain ⟨stub, hstub, he⟩ := Outcome.map_ok h
          obtain rfl := Option.some.inj he
          obtain ⟨text, -, rfl⟩ := Outcome.map_ok hstub
          cases hwritten
        | none =>
          simp only at h
          split at h
          · cases h
          · obtain ⟨text, htext, he⟩ := Outcome.map_ok h
            obtain rfl := Option.some.inj he
            exact ⟨rfl, htext⟩
      · rw [if_pos hdirectory] at h
        cases h
  · rw [if_pos henabled] at h
    cases h

/-- A stub can be read back exactly when the start of the id of its tool call has no blank, no `;`,
no `]` and no `\`. -/
theorem readsBack_iff (hkind : request.kind = toolResult ∨ request.kind = rawPayload ∨ request.kind = mediaPayload)
    (hsize : request.content.length < maxSize)
    (h : maybeExternalizePayload host a config existing request = .ok (some r))
    (hwritten : r.written = true) : ReadsBack r ↔ ReadableStub request.kind request.toolCallId := by
  obtain ⟨href, hbuild⟩ := written_spec h hwritten
  constructor
  · rintro ⟨-, hrefs, -⟩ htool c hc
    have hmem : r.ref ∈ extractExternalizedRefs r.placeholder := by
      rw [hrefs]
      exact List.mem_singleton_self _
    refine extracted_readable hmem c ?_
    rw [href, payloadFileName]
    simp [nameStub, htool, hc]
  · intro hreadable
    have hchars : ∀ c ∈ r.ref, isReadable c = true := by
      rw [href]
      exact payloadFileName_readable hreadable
    have hs : Sized (request.summary r.ref) := by
      have hbytes := length_encode_le request.content
      rw [maxSize] at hsize
      refine ⟨?_, ?_, ?_⟩
      · have hname := length_nameStub hkind request.role request.toolCallId
        have hfile := @length_payloadFileName host a request.kind request.role request.toolCallId request.content
        rw [← href] at hfile
        change r.ref.length ≤ 113
        omega
      · change request.content.length < 10 ^ 20
        omega
      · change (encode request.content).length < 10 ^ 20
        omega
    have hshown : (request.summary r.ref).shownKind = request.kind := by
      change placeholderMetadata (if request.kind = [] then toolResult else request.kind) = request.kind
      rcases hkind with he | he | he
      · rw [he]
        decide
      · rw [he]
        decide
      · rw [he]
        decide
    have hshape := buildExternalizedPlaceholder_shape hbuild
    have hplain : ∀ c ∈ request.kind, isPlain c = true := hshown ▸ plain_metadata _
    have hlength : request.kind.length ≤ 120 := hshown ▸ length_placeholderMetadata _
    rw [hshown] at hshape
    have hread := hshape.readsBack hs hplain hlength hchars (href ▸ payloadFileName_slash) (href ▸ payloadFileName_long)
    exact ⟨hread.1, hread.2, href ▸ isGenerated_payloadFileName hreadable⟩

end

/-- The stub of a tool output needs neither the redaction nor the media text. -/
theorem build_toolResult (host : Host) (content : Text) (h : summary.kind = toolResult) :
    buildExternalizedPlaceholder host summary content = .ok summary.toolStub := by
  have hshown : summary.shownKind = toolResult := by
    rw [Summary.shownKind, h]
    decide
  have hmedia : toolResult ≠ mediaPayload := by decide
  have hraw : toolResult ≠ rawPayload := by decide
  rw [buildExternalizedPlaceholder, ← Summary.shownKind, hshown, if_neg fun he => hmedia he.1,
    if_neg fun he => hraw he.1, buildPlain,
    if_neg (not_not_intro rfl)]

/-- A host without secrets and media, asked about one text. -/
def teaHost : Host where
  redactCatalogSensitiveText := .ok
  mediaPayloadPreviewContent := .ok
  sha256 _ := ⟨[169, 247, 77, 30, 195, 110, 189, 235, 45, 163, 246, 229, 134, 128, 144, 205, 42, 45,
    32, 179, 220, 202, 123, 98, 246, 3, 4, 177,
    211, 217, 239, 66], by decide⟩

theorem neZero_digits : NeZero 10 := ⟨by decide⟩

theorem neZero_times : NeZero (2 ^ 63) := ⟨by decide⟩

attribute [local instance] neZero_digits neZero_times

def teaAttempt : Attempt where
  directory := true
  date i := [2, 0, 2, 6, 0, 1, 0, 2][i]
  clock i := [0, 3, 0, 4, 0, 5][i]
  timeNs := 4096
  written := true

/-- A tool output under the id of its call. -/
def teaRequest (toolCallId : Text) : Request where
  content := "tea".toList
  kind := toolResult
  toolCallId := toolCallId
  role := "tool".toList
  toolName := "kettle".toList
  force := true
  write := true

theorem teaRequest_written (toolCallId : Text) : ∃ r, maybeExternalizePayload teaHost teaAttempt
    ⟨true, 24000⟩ none (teaRequest toolCallId) = .ok (some r) ∧
    r.written = true ∧ r.ref = payloadFileName teaHost teaAttempt toolResult "tool".toList toolCallId "tea".toList := by
  have hcontent : ¬ ((teaRequest toolCallId).content = [] ∨
      (((teaRequest toolCallId).content.length : Int) ≤ max 1 24000 ∧ ¬ (teaRequest toolCallId).force = true)) := by
    simp [teaRequest]
  simp only [maybeExternalizePayload, if_neg hcontent]
  simp only [teaAttempt, not_true_eq_false, and_false, if_false]
  rw [build_toolResult teaHost _ rfl]
  exact ⟨_, rfl, rfl, rfl⟩

theorem readsBack_iff_tea : ∃ r, maybeExternalizePayload teaHost teaAttempt
    ⟨true, 24000⟩ none (teaRequest "call_1".toList) = .ok (some r) ∧
    (ReadsBack r ↔ ReadableStub toolResult "call_1".toList) := by
  obtain ⟨r, hr, hwritten, -⟩ := teaRequest_written "call_1".toList
  exact ⟨r, hr, readsBack_iff (.inl rfl) (by decide) hr hwritten⟩

/-- The id of a call with a blank in it hides its file. -/
theorem stub_hidden : ∃ r, maybeExternalizePayload teaHost teaAttempt
    ⟨true, 24000⟩ none (teaRequest "call 1".toList) = .ok (some r) ∧
    r.written = true ∧ extractExternalizedRefs r.placeholder ≠ [r.ref] := by
  obtain ⟨r, hr, hwritten, href⟩ := teaRequest_written "call 1".toList
  refine ⟨r, hr, hwritten, fun hrefs => ?_⟩
  have hmem : r.ref ∈ extractExternalizedRefs r.placeholder := hrefs ▸ List.mem_singleton_self _
  have hblank : ' ' ∈ r.ref := by
    have hstub : ' ' ∈ nameStub toolResult "tool".toList "call 1".toList := by decide
    rw [href, payloadFileName]
    simp only [List.mem_append]
    exact .inl (.inl (.inl (.inl (.inl (.inr hstub)))))
  exact absurd (extracted_readable hmem ' ' hblank) (by decide)

end PayloadStub
