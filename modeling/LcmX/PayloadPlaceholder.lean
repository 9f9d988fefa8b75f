import LcmX.PayloadExternalize

/-!
# The placeholder of a payload

A placeholder starts with the only `[` in it and ends with the only `]`, its
values hold no separator, and it is too short to hold a payload. The pattern of
the restorer takes it from its first character to its last, with the reference as
its group.
-/
namespace Ingest

open Regex PyText

/-! ## The characters of a placeholder -/

/-- The characters of the values in a placeholder. -/
def isValueChar (c : Char) : Bool := isMetadataChar c || c = '?'

theorem toNat_lt_of_alnum {c : Char} (h : isAsciiAlnum c = true) : c.toNat < 128 := by
  simp only [isAsciiAlnum, Char.isAlpha, Char.isUpper, Char.isLower, Char.isDigit, Bool.or_eq_true, Bool.and_eq_true,
    decide_eq_true_eq, ge_iff_le, UInt32.le_iff_toNat_le] at h
  have hval : c.toNat = c.val.toNat := rfl
  have hZ : ('Z').val.toNat = 90 := rfl
  have hz : ('z').val.toNat = 122 := rfl
  have h9 : ('9').val.toNat = 57 := rfl
  omega

theorem valueChar_table : ∀ n < 128, isValueChar (Char.ofNat n) = true →
    Char.ofNat n ≠ ';' ∧ Char.ofNat n ≠ '[' ∧ Char.ofNat n ≠ ']' ∧ isSpace (Char.ofNat n) = false := by
  decide +kernel

theorem stubChar_table : ∀ n < 128, isStubChar (Char.ofNat n) = true →
    isValueChar (Char.ofNat n) = true ∧ Char.ofNat n ≠ '/' := by
  decide +kernel

theorem toNat_lt_of_valueChar {c : Char} (h : isValueChar c = true) : c.toNat < 128 := by
  simp only [isValueChar, isMetadataChar, Bool.or_eq_true, decide_eq_true_eq] at h
  rcases h with (((((h | rfl) | rfl) | rfl) | rfl) | rfl) | rfl
  · exact toNat_lt_of_alnum h
  all_goals decide

theorem valueChar_facts {c : Char} (h : isValueChar c = true) : c ≠ ';' ∧ c ≠ '[' ∧ c ≠ ']' ∧ isSpace c = false := by
  have htable := valueChar_table c.toNat (toNat_lt_of_valueChar h)
  rw [Char.ofNat_toNat] at htable
  exact htable h

theorem stubChar_facts {c : Char} (h : isStubChar c = true) : isValueChar c = true ∧ c ≠ '/' := by
  have hlow : c.toNat < 128 := by
    simp only [isStubChar, Bool.or_eq_true, decide_eq_true_eq] at h
    rcases h with ((h | rfl) | rfl) | rfl
    · exact toNat_lt_of_alnum h
    all_goals decide
  have htable := stubChar_table c.toNat hlow
  rw [Char.ofNat_toNat] at htable
  exact htable h

theorem dashRuns_safe {safe : Char → Bool} (hdash : safe '-' = true) (text : List Char) :
    ∀ c ∈ dashRuns safe text, safe c = true := by
  induction text with
  | nil => simp [dashRuns]
  | cons d rest ih =>
    intro c hc
    rw [dashRuns] at hc
    split at hc
    · next hd =>
      cases hc with
      | head => exact hd
      | tail _ hc => exact ih c hc
    · split at hc
      · exact ih c hc
      · cases hc with
        | head => exact hdash
        | tail _ hc => exact ih c hc

theorem mem_of_mem_stripBy {p : Char → Bool} {text : List Char} {c : Char} (h : c ∈ stripBy p text) : c ∈ text :=
  (List.dropWhile_sublist p).subset ((List.rdropWhile_prefix p _).subset h)

theorem placeholderMetadata_value (value : List Char) : ∀ c ∈ placeholderMetadata value, isValueChar c = true := by
  intro c hc
  have hcases : c = '?' ∨ c ∈ dashRuns isMetadataChar (if value = [] then ['?'] else value) := by
    have hc := List.mem_of_mem_take hc
    generalize dashRuns isMetadataChar (if value = [] then ['?'] else value) = runs at hc
    split at hc
    · exact .inl (List.mem_singleton.mp hc)
    · exact .inr (mem_of_mem_stripBy hc)
  cases hcases with
  | inl hmark => rw [hmark]; decide
  | inr hc => rw [isValueChar, dashRuns_safe (by decide) _ c hc, Bool.true_or]

theorem length_placeholderMetadata (value : List Char) : (placeholderMetadata value).length ≤ 120 :=
  List.length_take_le _ _

theorem hexDigit_stub : ∀ n < 16, isStubChar (Json.hexDigit n) = true := by decide

theorem digitChar_stub : ∀ n < 16, isStubChar (Nat.digitChar n) = true := by decide

theorem toDigits_stub {b : Nat} (hb : 1 < b) (hb' : b ≤ 16) (n : Nat) : ∀ c ∈ Nat.toDigits b n,
    isStubChar c = true := by
  induction n using Nat.strong_induction_on with
  | _ n ih =>
    intro c hc
    rw [Nat.toDigits_eq_if hb] at hc
    split at hc
    · rw [List.mem_singleton.mp hc]
      exact digitChar_stub n (by omega)
    · rw [List.mem_append, List.mem_singleton] at hc
      cases hc with
      | inl hc => exact ih _ (Nat.div_lt_self (by omega) hb) c hc
      | inr hc =>
        rw [hc]
        exact digitChar_stub _ (by have := Nat.mod_lt n (by omega : b > 0); omega)

theorem digitText_stub {n : Nat} (digits : Fin n → Fin 10) : ∀ c ∈ digitText digits, isStubChar c = true := by
  intro c hc
  obtain ⟨d, -, rfl⟩ := List.mem_map.mp hc
  exact (by decide : ∀ d : Fin 10, isStubChar (Char.ofNat (48 + d.val)) = true) d

theorem hexText_stub (bytes : List UInt8) : ∀ c ∈ hexText bytes, isStubChar c = true := by
  intro c hc
  obtain ⟨b, -, hc⟩ := List.mem_flatMap.mp hc
  simp only [List.mem_cons, List.not_mem_nil, or_false] at hc
  have hb := b.toNat_lt
  rcases hc with rfl | rfl
  · exact hexDigit_stub _ (by omega)
  · exact hexDigit_stub _ (by omega)

/-- A reference is made of the characters of file names. -/
theorem payloadRef_stub (h : Host) (a : Attempt) (f : Field) (content : List Char) :
    ∀ c ∈ payloadRef h a f content, isStubChar c = true := by
  intro c hc
  have hline : isStubChar '_' = true := by decide
  have hkind : ∀ c ∈ ingestPayloadKind.toList, isStubChar c = true := forall_mem_of_all (by decide)
  have hsuffix : ∀ c ∈ ".json".toList, isStubChar c = true := forall_mem_of_all (by decide)
  simp only [payloadRef, List.mem_append, List.mem_singleton] at hc
  rcases hc with ((((((((((hc | rfl) | hc) | rfl) | hc) | rfl) | hc) | rfl) | hc) | rfl) | hc) | hc
  · exact digitText_stub _ c hc
  · exact hline
  · exact digitText_stub _ c hc
  · exact hline
  · exact hkind c hc
  · exact hline
  · exact dashRuns_safe (by decide) _ c (List.mem_of_mem_take hc)
  · exact hline
  · exact hexText_stub _ c (List.mem_of_mem_take hc)
  · exact hline
  · exact toDigits_stub (by decide) (by decide) _ c hc
  · exact hsuffix c hc

theorem length_payloadRef (h : Host) (a : Attempt) (f : Field) (content : List Char) :
    (payloadRef h a f content).length ≤ 130 := by
  have htime : (Nat.toDigits 16 a.timeNs).length ≤ 16 := by
    rw [Nat.length_toDigits_le_iff (by decide) (by decide)]
    exact lt_of_lt_of_le a.timeNs.isLt (by decide)
  have hdate : (digitText a.date).length = 8 := by simp [digitText]
  have hclock : (digitText a.clock).length = 6 := by simp [digitText]
  have hkind : ingestPayloadKind.toList.length = 14 := by decide
  have hsuffix : ".json".toList.length = 5 := by decide
  simp only [payloadRef, List.length_append, List.length_singleton, hdate, hclock, hkind, hsuffix, List.length_take]
  omega

theorem le_length_payloadRef (h : Host) (a : Attempt) (f : Field) (content : List Char) :
    5 ≤ (payloadRef h a f content).length := by
  have hsuffix : ".json".toList.length = 5 := by decide
  rw [payloadRef, List.length_append, hsuffix]
  omega

/-! ## The shape of a placeholder -/

/-- What stands between the prefix and the reference. -/
def placeholderBody (p : IngestPayload) : List Char :=
  " kind=".toList ++ placeholderMetadata p.kind.toList ++ "; field=".toList ++ placeholderMetadata p.fieldPath ++
    "; chars=".toList ++ Nat.toDigits 10 p.content.length ++ "; bytes=".toList ++ Nat.toDigits 10
      (encode p.content).length

theorem placeholderText_eq (p : IngestPayload) (ref : List Char) : placeholderText p ref =
    externalizedPlaceholderPrefix ++ (placeholderBody p ++ (';' :: ' ' :: ("ref=".toList ++ (ref ++ [']'])))) := by
  unfold placeholderText placeholderBody
  simp

theorem externalizedPlaceholderPrefix_eq :
    externalizedPlaceholderPrefix = '[' :: "Externalized LCM ingest payload:".toList := by
  unfold externalizedPlaceholderPrefix
  simp

theorem placeholderText_cons (p : IngestPayload) (ref : List Char) : ∃ w, placeholderText p ref = '[' :: w := by
  rw [placeholderText_eq, externalizedPlaceholderPrefix_eq]
  exact ⟨_, rfl⟩

theorem placeholderText_concat (p : IngestPayload) (ref : List Char) :
    ∃ w, placeholderText p ref = w ++ [']'] := ⟨_, rfl⟩

/-- The length of a text is a machine size. -/
def maxSize : Nat := 2 ^ 63

/-- A payload that fits in a text has a short placeholder. -/
theorem length_placeholderText {p : IngestPayload} {ref : List Char} (hcontent : p.content.length < maxSize)
    (href : ref.length ≤ 130) : (placeholderText p ref).length < 4096 := by
  have hK := length_placeholderMetadata p.kind.toList
  have hF := length_placeholderMetadata p.fieldPath
  have hC : (Nat.toDigits 10 p.content.length).length ≤ 20 := by
    rw [Nat.length_toDigits_le_iff (by decide) (by decide)]
    exact lt_trans hcontent (by decide)
  have hB : (Nat.toDigits 10 (encode p.content).length).length ≤ 20 := by
    rw [Nat.length_toDigits_le_iff (by decide) (by decide)]
    have hbytes := length_encode_le p.content
    rw [maxSize] at hcontent
    omega
  unfold placeholderText externalizedPlaceholderPrefix
  simp
  omega

theorem body_cases {p : IngestPayload} {c : Char} (h : c ∈ placeholderBody p) :
    c = ';' ∨ c = ' ' ∨ isValueChar c = true ∨ c = '=' := by
  have hliteral : ∀ c ∈ " kind=".toList ++ "; field=".toList ++ "; chars=".toList ++ "; bytes=".toList,
      c = ';' ∨ c = ' ' ∨ isValueChar c = true ∨ c = '=' := forall_mem_of_all (by decide +kernel)
  have hdigits : ∀ n, c ∈ Nat.toDigits 10 n → isValueChar c = true := fun n hc =>
    (stubChar_facts (toDigits_stub (by decide) (by decide) n c hc)).1
  unfold placeholderBody at h
  simp only [List.mem_append] at h hliteral
  rcases h with ((((((h | h) | h) | h) | h) | h) | h) | h
  · exact hliteral c (.inl (.inl (.inl h)))
  · exact .inr (.inr (.inl (placeholderMetadata_value _ c h)))
  · exact hliteral c (.inl (.inl (.inr h)))
  · exact .inr (.inr (.inl (placeholderMetadata_value _ c h)))
  · exact hliteral c (.inl (.inr h))
  · exact .inr (.inr (.inl (hdigits _ h)))
  · exact hliteral c (.inr h)
  · exact .inr (.inr (.inl (hdigits _ h)))

/-! ## The pattern of the restorer -/

/-- The first separator of a text, or one behind it. -/
theorem split_separator {x y u v : List Char} (hx : ';' ∉ x) (h : x ++ ';' :: y = u ++ ';' :: v) :
    v = y ∨ ∃ u', y = u' ++ ';' :: v := by
  rcases List.append_eq_append_iff.mp h with ⟨a, -, ha⟩ | ⟨a, hxa, ha⟩
  · cases a with
    | nil => exact .inl (List.cons.inj ha).2.symm
    | cons c a => exact .inr ⟨a, (List.cons.inj ha).2⟩
  · cases a with
    | nil => exact .inl (List.cons.inj ha).2
    | cons c a =>
      have hc : ';' = c := (List.cons.inj ha).1
      exact absurd (by rw [hxa, ← hc]; simp) hx

theorem not_mem_of_value {l w : List Char} (hl : ';' ∉ l) (hw : ∀ c ∈ w, isValueChar c = true) : ';' ∉ l ++ w := by
  rw [List.mem_append]
  rintro (h | h)
  · exact hl h
  · exact (valueChar_facts (hw _ h)).1 rfl

theorem toDigits_value (n : Nat) : ∀ c ∈ Nat.toDigits 10 n, isValueChar c = true :=
  fun c hc => (stubChar_facts (toDigits_stub (by decide) (by decide) n c hc)).1

/-- No separator of a text stands before a reference. -/
def Separated (body : List Char) : Prop :=
  ∀ u v, body = u ++ ';' :: v → ∃ c d e w, v = ' ' :: c :: d :: e :: w ∧ isSpace c = false ∧ [c, d, e] ≠ ['r', 'e', 'f']

theorem separated_of_not_mem {body : List Char} (h : ';' ∉ body) : Separated body := by
  rintro u v rfl
  exact absurd (by simp) h

/-- The fields of a body, one after another. -/
theorem Separated.cons {x y : List Char} {c d e : Char} (hx : ';' ∉ x) (hspace : isSpace c = false)
    (hdiffers : [c, d, e] ≠ ['r', 'e', 'f'])
    (hy : Separated (' ' :: c :: d :: e :: y)) : Separated (x ++ ';' :: ' ' :: c :: d :: e :: y) := by
  intro u v h
  rcases split_separator hx h with rfl | ⟨u', h⟩
  · exact ⟨c, d, e, y, rfl, hspace, hdiffers⟩
  · exact hy u' v h

theorem body_separated (p : IngestPayload) : Separated (placeholderBody p) := by
  have hbody : placeholderBody p = (" kind=".toList ++ placeholderMetadata p.kind.toList) ++ ';' ::
      (" field=".toList ++ placeholderMetadata p.fieldPath ++ ';' ::
        (" chars=".toList ++ Nat.toDigits 10 p.content.length ++ ';' ::
          (" bytes=".toList ++ Nat.toDigits 10 (encode p.content).length))) := by
    unfold placeholderBody
    simp
  rw [hbody]
  refine Separated.cons (c := 'f') (d := 'i') (e := 'e')
    (not_mem_of_value (by simp) (placeholderMetadata_value _)) (by decide) (by decide) ?_
  refine Separated.cons (x := " field=".toList ++ placeholderMetadata p.fieldPath) (c := 'c') (d := 'h') (e := 'a')
    (not_mem_of_value (by simp) (placeholderMetadata_value _)) (by decide) (by decide) ?_
  refine Separated.cons (x := " chars=".toList ++ Nat.toDigits 10 p.content.length) (c := 'b') (d := 'y') (e := 't')
    (not_mem_of_value (by simp) (toDigits_value _)) (by decide) (by decide) ?_
  exact separated_of_not_mem (not_mem_of_value (l := " bytes=".toList) (by simp) (toDigits_value _))

/-- The part of the pattern behind the lazy one. -/
def referenceRe : Re :=
  .seq (.char (· = ';')) (.seq (star (.char isSpace)) (.seq (lit "ref=".toList)
    (.seq (.group 1 (plus (.char fun c => c ≠ ';' && c ≠ ']' && !isSpace c))) (.char (· = ']')))))

/-- A separator of the body is no match of it. -/
theorem run_reference_body {body u v behind rest : List Char} (hs : Separated body) (h : body = u ++ v) (hv : v ≠ []) :
    run referenceRe ⟨behind, v ++ rest, []⟩ = [] := by
  rw [List.eq_nil_iff_forall_not_mem]
  intro t ht
  simp only [referenceRe, run, List.mem_flatMap] at ht
  obtain ⟨s₁, h₁, s₂, h₂, s₃, h₃, -⟩ := ht
  obtain ⟨c, hc, hsemicolon, -⟩ := mem_next h₁
  cases v with
  | nil => exact hv rfl
  | cons d v =>
    obtain ⟨rfl, hrest⟩ : d = c ∧ v ++ rest = s₁.ahead := by simpa [Reaches] using hc.2
    rw [of_decide_eq_true hsemicolon] at h
    obtain ⟨c, d, e, w, rfl, hspace, hdiffers⟩ := hs u _ h
    obtain ⟨spaces, hspaces, hall, -⟩ := run_rep_char h₂
    have hahead : ' ' :: c :: d :: e :: (w ++ rest) = spaces ++ s₂.ahead := by
      rw [← hspaces.2, ← hrest]
      rfl
    have hprefix := isPrefix_of_run_lit h₃
    have href : "ref=".toList = ['r', 'e', 'f', '='] := by simp
    rw [href] at hprefix
    obtain ⟨after, hafter⟩ := hprefix
    rw [← hafter] at hahead
    -- the space is the only one, and what follows it is no reference
    rcases spaces with _ | ⟨_, _ | ⟨x, _⟩⟩
    · simp at hahead
    · simp only [List.cons_append, List.nil_append, List.cons.injEq] at hahead
      obtain ⟨-, rfl, rfl, rfl, -⟩ := hahead
      exact hdiffers rfl
    · have hx : c = x := by simpa using congrArg (fun l => l.tail.head?) hahead
      rw [hx, hall x (by simp)] at hspace
      cases hspace

theorem head?_flatMap_of_first {α β : Type} {l : List α} {x : α} {k : α → List β} {t : β} (hl : l.head? = some x)
    (hk : (k x).head? = some t) : (l.flatMap k).head? = some t := by
  cases l with
  | nil => cases hl
  | cons y l =>
    cases hl
    rw [List.flatMap_cons, List.head?_append, hk]
    rfl

/-- The state behind a placeholder, with its reference as the first group. -/
def pastPlaceholder (behind ref rest : List Char) (p : IngestPayload) : State where
  behind := (placeholderText p ref).reverse ++ behind
  ahead := rest
  groups := [(1, behind.length + (placeholderText p ref).length - ref.length - 1,
    behind.length + (placeholderText p ref).length - 1)]

/-- `[^;\]\s]`. -/
def isReferenceChar (c : Char) : Bool := c ≠ ';' && c ≠ ']' && !isSpace c

theorem isReferenceChar_of_stub {c : Char} (h : isStubChar c = true) : isReferenceChar c = true := by
  obtain ⟨hsemicolon, -, hbracket, hspace⟩ := valueChar_facts (stubChar_facts h).1
  simp [isReferenceChar, hsemicolon, hbracket, hspace]

theorem run_reference {ref : List Char} (hchars : ∀ c ∈ ref, isReferenceChar c = true)
    (hne : ref ≠ []) (behind rest : List Char) :
    (run referenceRe ⟨behind, ';' :: ' ' :: ("ref=".toList ++ (ref ++ ']' :: rest)), []⟩).head? =
      some ⟨']' :: (ref.reverse ++ ("ref=".toList.reverse ++ (' ' :: ';' :: behind))), rest,
        [(1, behind.length + 6, behind.length + 6 + ref.length)]⟩ := by
  simp only [referenceRe, run, State.next, decide_true, if_true, List.flatMap_cons, List.flatMap_nil, List.append_nil]
  -- the space, greedily
  have hspaces : (run (star (.char isSpace))
    ⟨';' :: behind, ' ' :: ("ref=".toList ++ (ref ++ ']' :: rest)), []⟩).head? =
      some ⟨' ' :: ';' :: behind, "ref=".toList ++ (ref ++ ']' :: rest), []⟩ := by
    have hstop : ∀ c ∈ ("ref=".toList ++ (ref ++ ']' :: rest)).head?, isSpace c = false := by
      simp
      decide
    obtain ⟨more, hmore⟩ := run_greedy_first hstop [] [' '] (';' :: behind)
      (forall_mem_of_all (by decide)) (Nat.zero_le _)
    exact congrArg List.head? hmore
  refine head?_flatMap_of_first hspaces ?_
  rw [run_lit_append, List.flatMap_singleton]
  -- the reference, up to its bracket
  have href : (run (plus (.char fun c => c ≠ ';' && c ≠ ']' && !isSpace c))
      ⟨"ref=".toList.reverse ++ (' ' :: ';' :: behind), ref ++ ']' :: rest, []⟩).head? =
      some ⟨ref.reverse ++ ("ref=".toList.reverse ++ (' ' :: ';' :: behind)), ']' :: rest, []⟩ := by
    have hstop : ∀ c ∈ (']' :: rest).head?, (c ≠ ';' && c ≠ ']' && !isSpace c) = false := by simp
    obtain ⟨more, hmore⟩ := run_greedy_first hstop [] ref ("ref=".toList.reverse ++ (' ' :: ';' :: behind)) hchars
      (List.length_pos_of_ne_nil hne)
    exact congrArg List.head? hmore
  refine head?_flatMap_of_first (x := ⟨ref.reverse ++ ("ref=".toList.reverse ++ (' ' :: ';' :: behind)), ']' :: rest,
        [(1, behind.length + 6, behind.length + 6 + ref.length)]⟩) ?_ (by simp)
  rw [List.head?_map, href]
  simp [State.pos]
  omega

/-- The placeholder pattern reads back the placeholder of a payload. -/
theorem match_placeholder {p : IngestPayload} {ref : List Char} (href : ∀ c ∈ ref, isStubChar c = true) (hne : ref ≠ [])
    (behind rest : List Char) :
    matchAt ingestPlaceholderRe behind (placeholderText p ref ++ rest) = some (pastPlaceholder behind ref rest p) := by
  have htext : placeholderText p ref ++ rest = externalizedPlaceholderPrefix ++ (placeholderBody p ++
      (';' :: ' ' :: ("ref=".toList ++ (ref ++ ']' :: rest)))) := by
    rw [placeholderText_eq]
    simp
  have hbody : ∀ c ∈ placeholderBody p, decide (c ≠ '\n') = true := by
    intro c hc
    rcases body_cases hc with rfl | rfl | hvalue | rfl
    · decide
    · decide
    · have hspace := (valueChar_facts hvalue).2.2.2
      simp only [ne_eq, decide_not, Bool.not_eq_true', decide_eq_false_iff_not]
      rintro rfl
      simp [isSpace] at hspace
    · decide
  have hfirst := run_lazy_first (placeholderBody p) hbody (fun u v hu hv => run_reference_body (body_separated p) hu hv)
    (run_reference (fun c hc => isReferenceChar_of_stub (href c hc)) hne
      ((placeholderBody p).reverse ++ (externalizedPlaceholderPrefix.reverse ++ behind)) rest)
  rw [matchAt, htext, ingestPlaceholderRe, run, run_lit_append, List.flatMap_singleton]
  refine Eq.trans hfirst (congrArg some ?_)
  have hlen : (placeholderText p ref).length = (placeholderBody p).length +
      externalizedPlaceholderPrefix.length + ref.length + 7 := by
    rw [placeholderText_eq]
    simp
    omega
  have hreversed : (placeholderText p ref).reverse ++ behind =
    ']' :: (ref.reverse ++ ("ref=".toList.reverse ++ (' ' :: ';' ::
      ((placeholderBody p).reverse ++ (externalizedPlaceholderPrefix.reverse ++ behind))))) := by
    rw [placeholderText_eq]
    simp
  rw [pastPlaceholder, hreversed, hlen]
  simp only [List.length_append, List.length_reverse, State.mk.injEq, true_and, List.cons.injEq,
    Prod.mk.injEq, and_true]
  omega

end Ingest
