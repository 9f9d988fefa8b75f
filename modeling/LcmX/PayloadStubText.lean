import LcmX.PayloadStub

/-!
# The characters and the length of a stub

Whatever the texts are that a stub shows, they bring no separator and no line break into it,
and no more characters than there is room for.
-/
namespace PayloadStub

open Regex PyText Ingest

/-! ## The preview -/

/-- A character that is no separator and no line break. -/
def isPlain (c : Char) : Bool := c ≠ ';' && c ≠ '\n'

theorem wordsFrom_plain (text : List Char) : ∀ {word : List Char}, (∀ c ∈ word, isSpace c = false) →
    ∀ w ∈ wordsFrom word text, ∀ c ∈ w, isSpace c = false := by
  induction text with
  | nil =>
    intro word hword w hw
    rw [wordsFrom] at hw
    split at hw
    · cases hw
    · rw [List.mem_singleton.mp hw]
      exact hword
  | cons d rest ih =>
    intro word hword w hw
    rw [wordsFrom] at hw
    split at hw
    · split at hw
      · exact ih (by simp) w hw
      · rcases List.mem_cons.mp hw with rfl | hw
        · exact hword
        · exact ih (by simp) w hw
    · rename_i hd
      refine ih (fun c hc => ?_) w hw
      rcases List.mem_append.mp hc with hc | hc
      · exact hword c hc
      · rw [List.mem_singleton.mp hc]
        simpa using hd

theorem mem_intercalate {sep : List Char} {parts : List (List Char)} {c : Char} (h : c ∈ sep.intercalate parts) :
    c ∈ sep ∨ ∃ part ∈ parts, c ∈ part := by
  rw [List.intercalate, List.mem_flatten] at h
  obtain ⟨part, hpart, hc⟩ := h
  induction parts with
  | nil => cases hpart
  | cons first parts ih =>
    cases parts with
    | nil =>
      rw [List.intersperse_singleton, List.mem_singleton] at hpart
      exact .inr ⟨first, List.mem_cons_self, hpart ▸ hc⟩
    | cons second parts =>
      rw [List.intersperse_cons_cons, List.mem_cons, List.mem_cons] at hpart
      rcases hpart with rfl | rfl | hpart
      · exact .inr ⟨_, List.mem_cons_self, hc⟩
      · exact .inl hc
      · rcases ih hpart with hsep | ⟨part', hmem, hc'⟩
        · exact .inl hsep
        · exact .inr ⟨part', List.mem_cons_of_mem _ hmem, hc'⟩

theorem mem_pieces_char {a : Re} {c : Char} {fuel : Nat} : ∀ {behind ahead : List Char},
    .inl c ∈ pieces a fuel behind ahead → c ∈ ahead := by
  induction fuel with
  | zero =>
    intro behind ahead h
    cases h
  | succ fuel ih =>
    intro behind ahead h
    rw [pieces_succ] at h
    split at h
    · rename_i t ht
      rcases List.mem_cons.mp h with h | h
      · cases h
      · obtain ⟨w, hw⟩ := run_reaches a (List.mem_of_mem_head? (Option.filter_eq_some_iff.mp ht).1)
        rw [show ahead = w ++ t.ahead from hw.2]
        exact List.mem_append_right _ (ih h)
    · cases ahead with
      | nil => cases h
      | cons d rest =>
        rcases List.mem_cons.mp h with h | h
        · cases h
          exact List.mem_cons_self
        · exact List.mem_cons_of_mem _ (ih h)

theorem mem_sub {a : Re} {replacement text : List Char} {c : Char}
    (h : c ∈ sub a (fun _ => replacement) text) : c ∈ text ∨ c ∈ replacement := by
  obtain ⟨piece, hpiece, hc⟩ := List.mem_flatMap.mp h
  cases piece with
  | inl d =>
    rw [List.mem_singleton.mp hc]
    exact .inl (mem_pieces_char hpiece)
  | inr m => exact .inr hc

theorem translatePreview_plain (c : Char) (h : c ≠ '\n') : isPlain (translatePreview c) = true := by
  unfold translatePreview isPlain
  split_ifs <;> simp_all

theorem neutralize_plain (text : Text) : ∀ c ∈ neutralize text, isPlain c = true := by
  intro c hc
  have hliteral : ∀ c ∈ "ref_".toList, isPlain c = true := forall_mem_of_all (by decide)
  have hquarantine : ∀ c ∈ "quarantined-assistant-output".toList, c ≠ '\n' := forall_mem_of_all (by decide)
  rcases mem_sub hc with hc | hc
  · obtain ⟨d, hd, rfl⟩ := List.mem_map.mp hc
    refine translatePreview_plain d ?_
    rcases mem_sub hd with hd | hd
    · rcases mem_intercalate hd with hd | ⟨word, hword, hd⟩
      · rw [List.mem_singleton.mp hd]
        decide
      · rintro rfl
        have hspace := wordsFrom_plain text (by simp) word hword _ hd
        simp [isSpace] at hspace
    · exact hquarantine d hd
  · exact hliteral c hc

/-- A preview, as a property of its characters and of its length. -/
structure Fits (room : Nat) (preview : Text) : Prop where
  plain : ∀ c ∈ preview, isPlain c = true
  short : preview.length ≤ room

theorem Outcome.map_ok {α β : Type} {f : α → β} {x : Outcome α} {b : β} (h : x.map f = .ok b) :
    ∃ a, x = .ok a ∧ f a = b := by
  cases x with
  | ok a => exact ⟨a, rfl, Outcome.ok.inj h⟩
  | raised => cases h
  | memoryError => cases h

theorem Outcome.bind_ok {α β : Type} {f : α → Outcome β} {x : Outcome α} {b : β}
    (h : x.bind f = .ok b) : ∃ a, x = .ok a ∧ f a = .ok b := by
  cases x with
  | ok a => exact ⟨a, rfl, h⟩
  | raised => cases h
  | memoryError => cases h

theorem previewText_plain {host : Host} {text result : Text}
    (h : rawPayloadPreviewText host text = .ok result) : ∀ c ∈ result, isPlain c = true := by
  obtain ⟨redacted, -, rfl⟩ := Outcome.map_ok h
  exact neutralize_plain redacted

theorem length_joiner : rawPayloadPreviewJoiner.length = 5 := by decide

theorem plain_joined {a b : Text} (ha : ∀ c ∈ a, isPlain c = true) (hb : ∀ c ∈ b, isPlain c = true) :
    ∀ c ∈ a ++ rawPayloadPreviewJoiner ++ b, isPlain c = true := by
  intro c hc
  have hjoiner : ∀ c ∈ rawPayloadPreviewJoiner, isPlain c = true := forall_mem_of_all (by decide)
  simp only [List.mem_append] at hc
  rcases hc with (hc | hc) | hc
  · exact ha c hc
  · exact hjoiner c hc
  · exact hb c hc

theorem rawPayloadPreview_fits {host : Host} {content preview : Text} {room : Nat} (hroom : 5 < room)
    (h : rawPayloadPreview host content room = .ok preview) : Fits room preview := by
  have hkeep : 0 < room - rawPayloadPreviewJoiner.length := by
    rw [length_joiner]
    omega
  rw [rawPayloadPreview] at h
  split at h
  · obtain ⟨headText, hhead, h⟩ := Outcome.bind_ok h
    obtain ⟨tailText, htail, rfl⟩ := Outcome.map_ok h
    refine ⟨plain_joined (fun c hc => previewText_plain hhead c (List.mem_of_mem_take hc))
      (fun c hc => previewText_plain htail c ?_), ?_⟩
    · rw [lastChars] at hc
      split at hc
      · exact hc
      · exact List.mem_of_mem_drop hc
    · rw [lastChars, if_neg (by omega)]
      simp only [List.length_append, List.length_take, List.length_drop, length_joiner]
      omega
  · obtain ⟨text, htext, rfl⟩ := Outcome.map_ok h
    split
    · rename_i hshort
      exact ⟨previewText_plain htext, hshort⟩
    · refine ⟨plain_joined (fun c hc => previewText_plain htext c (List.mem_of_mem_take hc))
        (fun c hc => previewText_plain htext c (List.mem_of_mem_drop hc)), ?_⟩
      simp only [List.length_append, List.length_take, List.length_drop, length_joiner]
      omega

/-! ## The names of the files -/

theorem safeStub_stub {value fallback : Text} (hfallback : ∀ c ∈ fallback, isStubChar c = true) :
    ∀ c ∈ safeStub value fallback, isStubChar c = true := by
  intro c hc
  have hc := List.mem_of_mem_take hc
  split at hc
  · exact hfallback c hc
  · exact dashRuns_safe (by decide) _ c hc

/-- A character that a name may take from the id of a call, with a file that can be read back. -/
def isReadable (c : Char) : Bool := isReferenceChar c && c ≠ '\\'

theorem isReadable_of_stub {c : Char} (h : isStubChar c = true) : isReadable c = true := by
  have hback : c ≠ '\\' := by
    rintro rfl
    cases h
  simp [isReadable, isReferenceChar_of_stub h, hback]

/-- The names that the readers of stubs can take. -/
def ReadableStub (kind toolCallId : Text) : Prop :=
  kind = toolResult → ∀ c ∈ toolCallStub toolCallId, isReadable c = true

theorem toolCallStub_slash (toolCallId : Text) : ∀ c ∈ toolCallStub toolCallId, c ≠ '/' := by
  intro c hc
  obtain ⟨d, -, rfl⟩ := List.mem_map.mp (List.mem_of_mem_take hc)
  split
  · decide
  · rename_i h
    exact fun he => h (.inl he)

theorem nameStub_slash (kind role toolCallId : Text) : ∀ c ∈ nameStub kind role toolCallId, c ≠ '/' := by
  intro c hc
  rw [nameStub] at hc
  split at hc
  · exact toolCallStub_slash toolCallId c hc
  · have hstub : isStubChar c = true := by
      simp only [List.mem_append, List.mem_singleton] at hc
      rcases hc with (hc | rfl) | hc
      · exact safeStub_stub (forall_mem_of_all (by decide)) c hc
      · decide
      · exact safeStub_stub (forall_mem_of_all (by decide)) c hc
    exact (stubChar_facts hstub).2

theorem nameStub_readable {kind toolCallId : Text} (h : ReadableStub kind toolCallId)
    (role : Text) : ∀ c ∈ nameStub kind role toolCallId, isReadable c = true := by
  intro c hc
  rw [nameStub] at hc
  split at hc
  · rename_i hkind
    exact h hkind c hc
  · refine isReadable_of_stub ?_
    simp only [List.mem_append, List.mem_singleton] at hc
    rcases hc with (hc | rfl) | hc
    · exact safeStub_stub (forall_mem_of_all (by decide)) c hc
    · decide
    · exact safeStub_stub (forall_mem_of_all (by decide)) c hc

/-- The characters of a file name besides the stub. -/
theorem payloadFileName_cases {host : Host} {a : Attempt} {kind role toolCallId content : Text} {c : Char}
    (h : c ∈ payloadFileName host a kind role toolCallId content) : isStubChar c = true ∨
      c ∈ nameStub kind role toolCallId := by
  have hsuffix : ∀ c ∈ ".json".toList, isStubChar c = true := forall_mem_of_all (by decide)
  simp only [payloadFileName, List.mem_append, List.mem_singleton] at h
  rcases h with (((((((((h | rfl) | h) | rfl) | h) | rfl) | h) | rfl) | h) | h)
  · exact .inl (digitText_stub _ c h)
  · exact .inl (by decide)
  · exact .inl (digitText_stub _ c h)
  · exact .inl (by decide)
  · exact .inr h
  · exact .inl (by decide)
  · exact .inl (hexText_stub _ c (List.mem_of_mem_take h))
  · exact .inl (by decide)
  · exact .inl (toDigits_stub (by decide) (by decide) _ c h)
  · exact .inl (hsuffix c h)

theorem length_nameStub {kind : Text}
    (hkind : kind = toolResult ∨ kind = rawPayload ∨ kind = mediaPayload) (role toolCallId : Text) :
    (nameStub kind role toolCallId).length ≤ 62 := by
  have hsafe : ∀ value fallback, (safeStub value fallback).length ≤ 48 := fun _ _ => List.length_take_le _ _
  have hrole := hsafe role "message".toList
  have hcall : (toolCallStub toolCallId).length ≤ 48 := List.length_take_le _ _
  rcases hkind with rfl | rfl | rfl
  · rw [nameStub, if_pos rfl]
    omega
  · have hstub : (safeStub rawPayload "payload".toList).length = 11 := by decide
    rw [nameStub, if_neg (by decide), List.length_append, List.length_append, hstub, List.length_singleton]
    omega
  · have hstub : (safeStub mediaPayload "payload".toList).length = 13 := by decide
    rw [nameStub, if_neg (by decide), List.length_append, List.length_append, hstub, List.length_singleton]
    omega

theorem length_toDigits_hex (n : Fin (2 ^ 63)) : (Nat.toDigits 16 n).length ≤ 16 := by
  rw [Nat.length_toDigits_le_iff (by decide) (by decide)]
  exact lt_of_lt_of_le n.isLt (by decide)

theorem length_payloadFileName {host : Host} {a : Attempt} {kind role toolCallId content : Text} :
    (payloadFileName host a kind role toolCallId content).length ≤ (nameStub kind role toolCallId).length + 51 := by
  have htime := length_toDigits_hex a.timeNs
  have hdate : (digitText a.date).length = 8 := by simp [digitText]
  have hclock : (digitText a.clock).length = 6 := by simp [digitText]
  have hsuffix : ".json".toList.length = 5 := by decide
  have hdigest : (contentDigestPrefix host content).length ≤ 12 := List.length_take_le _ _
  simp only [payloadFileName, List.length_append, List.length_singleton, hdate, hclock, hsuffix]
  omega

end PayloadStub
