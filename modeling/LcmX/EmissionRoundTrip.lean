import LcmX.EmissionProjection

/-!
# Descriptors are read back as they were written

The writer counts the rows whose text starts with a span, the reader those
whose first bytes have the digest of one. Without a collision these are the same
rows, so the ordinal of a descriptor leads back to the row it was written for.
-/
namespace Emission

open PyText Reconcile

variable {S : Type} {sha256 : List UInt8 → String}

/-! ## The same rows by text and by digest -/

/-- No row starts with other bytes that have the digest of a span. -/
def DigestsApart (sha256 : List UInt8 → String) (messages : List Message) (span : String) : Prop :=
  ∀ m ∈ messages, ∀ content, m.content = .text content →
    sha256 ((encode content.toList).take (encode span.toList).length) = sha256 (encode span.toList) →
    (encode content.toList).take (encode span.toList).length = encode span.toList

theorem startsWith_iff {span content : String} : startsWith span content = true ↔
    ∃ suffix, content = span ++ suffix := by
  rw [startsWith, List.isPrefixOf_iff_prefix]
  constructor
  · rintro ⟨suffix, h⟩
    refine ⟨String.ofList suffix, ?_⟩
    rw [← String.toList_inj, String.toList_append, String.toList_ofList, h]
  · rintro ⟨suffix, rfl⟩
    rw [String.toList_append]
    exact List.prefix_append _ _

theorem startsWithDigest_eq {messages : List Message} {span content : String} {m : Message}
    (hapart : DigestsApart sha256 messages span) (hm : m ∈ messages) (hcontent : m.content = .text content) :
    startsWithDigest sha256 (encode span.toList).length (sha256 (encode span.toList)) content =
      startsWith span content := by
  rw [Bool.eq_iff_iff, startsWith_iff]
  simp only [startsWithDigest, decide_eq_true_eq]
  constructor
  · rintro ⟨-, hdigest⟩
    have htake := hapart m hm content hcontent hdigest
    have hbytes : encode span.toList ++ (encode content.toList).drop (encode span.toList).length =
        encode content.toList := by
      nth_rewrite 1 [← htake]
      exact List.take_append_drop _ _
    have hprefix : span.toList <+: content.toList := isPrefix_of_encode hbytes
    exact startsWith_iff.mp (List.isPrefixOf_iff_prefix.mpr hprefix)
  · rintro ⟨suffix, rfl⟩
    simp

theorem candidateRows_digest {messages : List Message} {span : String} (hapart : DigestsApart sha256 messages span)
    (role : Option String) :
    emissionCandidateRows messages role
    (startsWithDigest sha256 (encode span.toList).length (sha256 (encode span.toList))) =
      emissionCandidateRows messages role (startsWith span) := by
  apply List.filter_congr
  rintro ⟨m, i⟩ hp
  have hm : m ∈ messages := List.fst_mem_of_mem_zipIdx hp
  cases hcontent : m.content with
  | text content => simp [Content.text?, startsWithDigest_eq hapart hm hcontent]
  | other _ => simp [Content.text?]

/-- A position stands in the list of rows where its own row does. -/
theorem candidateRows_idxOf {messages : List Message} {role : Option String}
    {accepts : String → Bool} {p : Message × Nat}
    (hp : p ∈ emissionCandidateRows messages role accepts) :
    (emissionCandidateRows messages role
      accepts)[((emissionCandidateRows messages role accepts).map Prod.snd).idxOf p.2]? =
      some p := by
  generalize hrows : emissionCandidateRows messages role accepts = rows at hp
  have hmem : p.2 ∈ rows.map Prod.snd := List.mem_map_of_mem hp
  have hlt : (rows.map Prod.snd).idxOf p.2 < rows.length := by
    simpa using List.idxOf_lt_length_of_mem hmem
  have hsnd : (rows[(rows.map Prod.snd).idxOf p.2]).2 = p.2 := by
    have hget := List.getElem_idxOf (List.idxOf_lt_length_of_mem hmem)
    rwa [List.getElem_map] at hget
  have hsource : ∀ q ∈ rows, messages[q.2]? = some q.1 := by
    intro q hq
    rw [← hrows] at hq
    exact List.mk_mem_zipIdx_iff_getElem?.mp (List.mem_of_mem_filter hq)
  have hfst := hsource _ (List.getElem_mem hlt)
  rw [hsnd, hsource p hp] at hfst
  rw [List.getElem?_eq_getElem hlt]
  exact congrArg some (Prod.ext (Option.some.inj hfst).symm hsnd)

/-! ## What the writer records -/

/-- The candidates that are bound, with their descriptors. -/
def bindingsFrom (sha256 : List UInt8 → String) (messages : List Message) (scope : Binding) :
    Nat → List (Candidate S) → List (Candidate S × Descriptor S)
  | _, [] => []
  | searchFrom, candidate :: candidates =>
    match bindCandidate sha256 messages scope searchFrom candidate with
    | some descriptor => (candidate, descriptor) :: bindingsFrom sha256 messages scope
          (descriptor.outputIndex + 1) candidates
    | none => bindingsFrom sha256 messages scope searchFrom candidates

theorem finalizeFrom_eq (messages : List Message) (scope : Binding) (candidates : List (Candidate S)) : ∀ searchFrom,
    finalizeFrom sha256 messages scope searchFrom candidates =
      (bindingsFrom sha256 messages scope searchFrom candidates).map Prod.snd := by
  induction candidates with
  | nil => exact fun _ => rfl
  | cons candidate candidates ih =>
    intro searchFrom
    rw [finalizeFrom, bindingsFrom]
    cases bindCandidate sha256 messages scope searchFrom candidate with
    | some descriptor => simp [ih]
    | none => exact ih searchFrom

theorem bindingsFrom_sublist (messages : List Message) (scope : Binding)
    (candidates : List (Candidate S)) : ∀ searchFrom,
    ((bindingsFrom sha256 messages scope searchFrom candidates).map Prod.fst).Sublist candidates := by
  induction candidates with
  | nil => exact fun _ => List.Sublist.slnil
  | cons candidate candidates ih =>
    intro searchFrom
    rw [bindingsFrom]
    cases bindCandidate sha256 messages scope searchFrom candidate with
    | some descriptor => exact (ih _).cons_cons _
    | none => exact (ih searchFrom).cons _

/-- A candidate is bound to a row of the list: what its descriptor says of the row. -/
structure BoundTo (sha256 : List UInt8 → String) (messages : List Message) (scope : Binding) (searchFrom : Nat)
    (candidate : Candidate S) (d : Descriptor S) (kind : EmissionKind) (span suffix : String)
      (message : Message) : Prop where
  ofKind : candidate.kind = some kind
  ofSpan : candidate.span = some span
  nonempty : span ≠ ""
  row : messages[d.outputIndex]? = some message
  content : message.content = .text (span ++ suffix)
  plain : message.isPlain = true
  later : searchFrom ≤ d.outputIndex
  role : candidate.fullIdentity.map ReplayIdentity.role = some message.roleText
  described : d = describe sha256 messages candidate scope kind span message (span ++ suffix) d.outputIndex

theorem boundRows_subset {messages : List Message} {candidate : Candidate S} {searchFrom : Nat} {span : String}
    {p : Message × Nat} (hp : p ∈ boundRows messages candidate searchFrom span) :
    p ∈ emissionCandidateRows messages (candidate.fullIdentity.map ReplayIdentity.role) (startsWith span) ∧
      searchFrom ≤ p.2 := by
  have hremaining : p ∈ (emissionCandidateRows messages (candidate.fullIdentity.map ReplayIdentity.role)
      (startsWith span)).filter fun p => searchFrom ≤ p.2 := by
    simp only [boundRows] at hp
    split at hp
    · exact List.mem_of_mem_filter hp
    · exact List.mem_of_mem_filter hp
  simpa using List.mem_filter.mp hremaining

/-- A descriptor is bound to a message with the candidate's text in front. -/
theorem bindCandidate_spec {messages : List Message} {scope : Binding} {searchFrom : Nat} {candidate : Candidate S}
    {d : Descriptor S} (h : bindCandidate sha256 messages scope searchFrom candidate = some d) :
    ∃ kind span suffix message, BoundTo sha256 messages scope searchFrom candidate d kind span suffix message := by
  cases hkind : candidate.kind with
  | none => simp [bindCandidate, hkind] at h
  | some kind =>
  cases hspan : candidate.span with
  | none => simp [bindCandidate, hkind, hspan] at h
  | some span =>
    simp only [bindCandidate, hkind, hspan] at h
    split at h
    · cases h
    · next hnonempty =>
      split at h
      · next message index hbound =>
        obtain ⟨hrow, hlater⟩ := boundRows_subset (hbound ▸ List.mem_singleton_self (message, index))
        obtain ⟨hzip, hpasses⟩ := List.mem_filter.mp hrow
        simp only [Bool.and_eq_true, decide_eq_true_eq] at hpasses
        split at h
        · next content hcontent =>
          split at h
          · next hchecked =>
            obtain ⟨suffix, rfl⟩ := startsWith_iff.mp hchecked.1
            cases h
            exact ⟨kind, span, suffix, message,
              { ofKind := hkind
                ofSpan := hspan
                nonempty := hnonempty
                row := List.mk_mem_zipIdx_iff_getElem?.mp hzip
                content := hcontent
                plain := hpasses.1.1
                later := hlater
                role := hpasses.1.2.symm
                described := rfl }⟩
          · cases h
        · cases h
      · cases h

/-! ## What the reader finds -/

/-- The entry of a bound row: the span is generated, and the rest of the content is the effective one. -/
def boundEntry (candidate : Candidate S) (d : Descriptor S) (kind : EmissionKind)
    (span suffix : String) (message : Message) :
    EmissionProjectionEntry S where
  fullIdentity := emissionIdentity message
  effectiveIdentity := identityWith message suffix
  generatedSpan := some span
  retainedSource := candidate.retainedSource
  kind := some (.inl kind)
  suffixSha256 := some d.suffixSha256
  suffixLength := some d.suffixLength
  outputIndex := some d.outputIndex

theorem Message.isPlain_iff {m : Message} : m.isPlain = true ↔ m.toolCalls = [] ∧ m.toolCallId = "" := by
  simp [Message.isPlain]

/-- A row with the identity of a plain one is plain. -/
theorem isPlain_of_identity {m message : Message} (h : emissionIdentity m = emissionIdentity message)
    (hplain : message.isPlain = true) : m.isPlain = true := by
  obtain ⟨hcalls, hid⟩ := Message.isPlain_iff.mp hplain
  simp only [emissionIdentity, identityWith, ReplayIdentity.mk.injEq, hcalls, hid] at h
  obtain ⟨-, -, hcallId, hdumps, -⟩ := h
  refine Message.isPlain_iff.mpr ⟨Json.dumps_arr_eq_nil (String.ofList_injective hdumps), hcallId⟩

namespace BoundTo

variable {messages : List Message} {scope : Binding} {searchFrom : Nat} {candidate : Candidate S} {d : Descriptor S}
  {kind : EmissionKind} {span suffix : String} {message : Message}

section

variable (h : BoundTo sha256 messages scope searchFrom candidate d kind span suffix message)
include h

theorem descriptor_role : d.role = message.roleText := congrArg Descriptor.role h.described

theorem descriptor_bytes : d.generatedSpanBytes = (encode span.toList).length :=
  congrArg Descriptor.generatedSpanBytes h.described

theorem descriptor_digest : d.generatedSpanSha256 = sha256 (encode span.toList) :=
  congrArg Descriptor.generatedSpanSha256 h.described

/-- The row stands among those that start with the span. -/
theorem mem_rows : (message, d.outputIndex) ∈ emissionCandidateRows messages (some message.roleText)
    (startsWith span) := by
  rw [emissionCandidateRows, List.mem_filter]
  refine ⟨List.mk_mem_zipIdx_iff_getElem?.mpr h.row, ?_⟩
  simp [h.plain, h.content, Content.text?, startsWith_iff.mpr ⟨suffix, rfl⟩]

/-- The reader's rows are the writer's. -/
theorem rows_eq (hapart : DigestsApart sha256 messages span) :
    emissionCandidateRows messages (some d.role) (startsWithDigest sha256 d.generatedSpanBytes d.generatedSpanSha256) =
      emissionCandidateRows messages (some message.roleText) (startsWith span) := by
  rw [h.descriptor_role, h.descriptor_bytes, h.descriptor_digest, candidateRows_digest hapart]

theorem occurrence_eq (hapart : DigestsApart sha256 messages span) :
    (emissionCandidateRows messages (some d.role)
      (startsWithDigest sha256 d.generatedSpanBytes d.generatedSpanSha256))[d.samePrefixOrdinal]? =
      some (message, d.outputIndex) := by
  have hordinal : d.samePrefixOrdinal = ((emissionCandidateRows messages (some message.roleText) (startsWith span)).map
      Prod.snd).idxOf d.outputIndex := by
    rw [← h.role]
    exact congrArg Descriptor.samePrefixOrdinal h.described
  rw [h.rows_eq hapart, hordinal]
  exact candidateRows_idxOf h.mem_rows

/-- The row alone bears the span, so every output row of its identity is still there. -/
theorem multiplicity (hapart : DigestsApart sha256 messages span) (htext : ∀ m ∈ messages, ∃ s, m.content = .text s)
    (hsuffix : suffix = "") : multiplicityAgrees sha256 messages d (messages.map emissionIdentity) span = true := by
  have hrecorded : (messages.map emissionIdentity)[d.outputIndex]? = some (emissionIdentity message) := by
    simp [h.row]
  simp only [multiplicityAgrees, h.rows_eq hapart, hrecorded, Option.any_some, decide_eq_true_eq]
  have hpositions : messages.countP (fun m => emissionIdentity m = emissionIdentity message) =
      messages.zipIdx.countP fun p => emissionIdentity p.1 = emissionIdentity message := by
    nth_rewrite 1 [← List.zipIdx_map_fst 0 messages]
    rw [List.countP_map]
    rfl
  rw [List.countP_map, emissionCandidateRows, List.countP_filter]
  apply le_of_eq_of_le hpositions
  apply List.countP_mono_left
  rintro ⟨m, i⟩ hp hsame
  obtain ⟨content, hcontent⟩ := htext m (List.fst_mem_of_mem_zipIdx hp)
  have hidentity := of_decide_eq_true hsame
  have hrole : m.roleText = message.roleText := congrArg ReplayIdentity.role hidentity
  have hsame : content = span := by
    have hnormalized := congrArg ReplayIdentity.content hidentity
    simpa [emissionIdentity, identityWith, hcontent, h.content, Content.normalized, hsuffix] using hnormalized
  simp [isPlain_of_identity hidentity h.plain, hrole, hcontent, hsame, Content.text?, startsWith]

theorem projectRow_eq (hapart : DigestsApart sha256 messages span) (htext : ∀ m ∈ messages, ∃ s, m.content = .text s)
    (hsuffix : suffix = "" ∨ strip suffix.toList ≠ []) :
    projectRow sha256 messages d (messages.map emissionIdentity) message (span ++ suffix) =
      some (boundEntry candidate d kind span suffix message) := by
  have hbytes : encode (span ++ suffix).toList = encode span.toList ++ encode suffix.toList := by simp
  have hrecorded : ∃ recorded, recorded <+: encode (strip suffix.toList) ∧ d.suffixLength = recorded.length ∧
      d.suffixSha256 = sha256 recorded := by
    refine ⟨recordedSuffix kind candidate.retainedSource suffix.toList, ?_, ?_, ?_⟩
    · rw [recordedSuffix]
      split
      · exact List.nil_prefix
      · exact List.prefix_rfl
    · have hlength := congrArg Descriptor.suffixLength h.described
      simpa [describe] using hlength
    · have hdigest := congrArg Descriptor.suffixSha256 h.described
      simpa [describe] using hdigest
  obtain ⟨recorded, ⟨rest, hstarts⟩, hlength, hdigest⟩ := hrecorded
  have hkind : d.kind = kind := congrArg Descriptor.kind h.described
  have hsource : d.retainedSource = candidate.retainedSource := congrArg Descriptor.retainedSource h.described
  simp only [projectRow, hbytes, h.descriptor_bytes, List.take_left, List.drop_left, decode_encode,
    String.ofList_toList]
  rw [if_pos]
  · simp only [boundEntry, hkind, hsource]
  · refine ⟨?_, ?_, ?_⟩
    · rw [hlength, ← hstarts, List.length_append]
      omega
    · rw [hlength, ← hstarts, List.take_left, hdigest]
    · intro _ hempty
      refine h.multiplicity hapart htext (hsuffix.resolve_right (not_not_intro ?_))
      exact encode_inj hempty

theorem findOccurrence_eq (hapart : DigestsApart sha256 messages span)
    (htext : ∀ m ∈ messages, ∃ s, m.content = .text s)
    (hsuffix : suffix = "" ∨ strip suffix.toList ≠ []) :
    findOccurrence sha256 messages (messages.map emissionIdentity) searchFrom d =
      some (boundEntry candidate d kind span suffix message, d.outputIndex) := by
  have hlater : ¬ d.outputIndex < searchFrom := not_lt.mpr h.later
  simp [findOccurrence, h.occurrence_eq hapart, hlater, h.content, Content.text?, h.projectRow_eq hapart htext hsuffix]

theorem wellFormed : d.isWellFormed (messages.map emissionIdentity) = true := by
  have hlt : d.outputIndex < messages.length := (List.getElem?_eq_some_iff.mp h.row).1
  have hof : d.outputOf = some messages.length := congrArg Descriptor.outputOf h.described
  have hrole : message.roleText ≠ "" := by
    rw [Message.roleText]
    split
    · decide
    · assumption
  have hspan : 0 < (encode span.toList).length := by
    rw [List.length_pos_iff]
    intro hempty
    have hnil : span.toList = [] := encode_inj hempty
    exact h.nonempty (String.toList_eq_nil_iff.mp hnil)
  simp [Descriptor.isWellFormed, h.descriptor_bytes, h.descriptor_role, hof, hlt, hrole, hspan]

end

end BoundTo

/-! ## The whole run -/

section

variable {messages : List Message} {scope : Binding}

/-- The text behind the span of a bound row is empty or has a character that is no whitespace. -/
def SuffixesVisible (messages : List Message) (bindings : List (Candidate S × Descriptor S)) : Prop :=
  ∀ b ∈ bindings, ∀ span suffix message, b.1.span = some span → messages[b.2.outputIndex]? = some message →
    message.content = .text (span ++ suffix) → suffix = "" ∨ strip suffix.toList ≠ []

/-- The row of a descriptor has the entry of its candidate's span. -/
def Projected (messages : List Message) (entries : List (EmissionProjectionEntry S))
    (b : Candidate S × Descriptor S) : Prop :=
  ∃ kind span suffix message, b.1.kind = some kind ∧ b.1.span = some span ∧ messages[b.2.outputIndex]? = some message ∧
    message.content = .text (span ++ suffix) ∧
    entries[b.2.outputIndex]? = some (boundEntry b.1 b.2 kind span suffix message)

theorem bindingsFrom_later {candidates : List (Candidate S)} : ∀ {searchFrom : Nat},
    ∀ b ∈ bindingsFrom sha256 messages scope searchFrom candidates, searchFrom ≤ b.2.outputIndex := by
  induction candidates with
  | nil =>
    intro searchFrom b hb
    cases hb
  | cons candidate candidates ih =>
    intro searchFrom b hb
    rw [bindingsFrom] at hb
    split at hb
    · next d hd =>
      obtain ⟨_, _, _, _, hbound⟩ := bindCandidate_spec hd
      have hlater := hbound.later
      cases hb with
      | head => exact hlater
      | tail _ hb =>
        have := ih b hb
        omega
    · exact ih b hb

/-- The reader keeps pace with the writer: from the same position on it binds what the writer bound, and touches
no other entry. -/
theorem project_bindings {candidates : List (Candidate S)} (htext : ∀ m ∈ messages, ∃ s, m.content = .text s)
    (proof : Proof S) (hbinding : proof.binding = scope) (houtput : proof.output = messages.map emissionIdentity)
    (hapart : ∀ c ∈ candidates, ∀ span, c.span = some span → DigestsApart sha256 messages span) :
    ∀ {searchFrom : Nat} {entries : List (EmissionProjectionEntry S)}, entries.length = messages.length →
    SuffixesVisible messages (bindingsFrom sha256 messages scope searchFrom candidates) →
    ∃ final last, (finalizeFrom sha256 messages scope searchFrom candidates).foldl
    (projectDescriptor sha256 messages proof)
        (entries, searchFrom) = (final, last) ∧ final.length = messages.length ∧
      (∀ b ∈ bindingsFrom sha256 messages scope searchFrom candidates, Projected messages final b) ∧
      ∀ i, (∀ b ∈ bindingsFrom sha256 messages scope searchFrom candidates, b.2.outputIndex ≠ i) →
      final[i]? = entries[i]? := by
  induction candidates with
  | nil =>
    intro searchFrom entries hlen _
    exact ⟨entries, searchFrom, rfl, hlen, fun b hb => (List.not_mem_nil hb).elim, fun _ _ => rfl⟩
  | cons candidate candidates ih =>
    intro searchFrom entries hlen hvisible
    have ih := @ih fun c hc => hapart c (List.mem_cons_of_mem _ hc)
    rw [finalizeFrom]
    cases hd : bindCandidate sha256 messages scope searchFrom candidate with
    | none =>
      simp only [bindingsFrom, hd] at hvisible ⊢
      exact ih hlen hvisible
    | some d =>
      simp only [bindingsFrom, hd, List.foldl_cons] at hvisible ⊢
      obtain ⟨kind, span, suffix, message, hbound⟩ := bindCandidate_spec hd
      have hsuffix := hvisible _ List.mem_cons_self span suffix message hbound.ofSpan hbound.row hbound.content
      have hscope : d.scope = proof.binding := (congrArg Descriptor.scope hbound.described).trans hbinding.symm
      have hstep : projectDescriptor sha256 messages proof (entries, searchFrom) d =
          (entries.set d.outputIndex (boundEntry candidate d kind span suffix message), d.outputIndex + 1) := by
        rw [projectDescriptor, houtput, if_pos ⟨hscope, hbound.wellFormed⟩,
          hbound.findOccurrence_eq (hapart _ List.mem_cons_self span hbound.ofSpan) htext hsuffix]
      rw [hstep]
      have hset : (entries.set d.outputIndex (boundEntry candidate d kind span suffix message)).length =
          messages.length := by
        rw [List.length_set, hlen]
      obtain ⟨final, last, hfold, hfinal, hprojected, hothers⟩ := ih hset
        fun b hb => hvisible b (List.mem_cons_of_mem _ hb)
      refine ⟨final, last, hfold, hfinal, ?_, ?_⟩
      · intro b hb
        cases hb with
        | head =>
          -- the later rows stand behind this one
          have hkept := hothers d.outputIndex fun b hb => by
            have := bindingsFrom_later b hb
            omega
          have hlt : d.outputIndex < entries.length := hlen ▸ (List.getElem?_eq_some_iff.mp hbound.row).1
          exact ⟨kind, span, suffix, message, hbound.ofKind, hbound.ofSpan, hbound.row, hbound.content, by
            rw [hkept, List.getElem?_set_self hlt]⟩
        | tail _ hb => exact hprojected b hb
      · intro i hi
        rw [hothers i fun b hb => hi b (List.mem_cons_of_mem _ hb),
          List.getElem?_set_ne (hi _ List.mem_cons_self)]

/-- The candidates that `_finalize_emission_descriptors` binds, with their descriptors. -/
def bindings (sha256 : List UInt8 → String) (messages : List Message)
    (candidates : List (Candidate S)) (scope : Binding) :
    List (Candidate S × Descriptor S) :=
  bindingsFrom sha256 messages scope 0 candidates

/-- The descriptors of an output are read back against it: each binds the row at its index, with the span of its
candidate as the generated one, and no other row is projected. -/
theorem project_finalize {messages : List Message} {candidates : List (Candidate S)} {scope : Binding}
    (htext : ∀ m ∈ messages, ∃ s, m.content = .text s)
    (hapart : ∀ c ∈ candidates, ∀ span, c.span = some span → DigestsApart sha256 messages span)
    (hvisible : SuffixesVisible messages (bindings sha256 messages candidates scope)) :
    let emissions := finalizeEmissionDescriptors sha256 messages candidates scope
    let entries := (projectEmittedOccurrences sha256 messages
      (some ⟨4, scope, emissions, messages.map emissionIdentity⟩)).entries
    emissions = (bindings sha256 messages candidates scope).map Prod.snd ∧
      ((bindings sha256 messages candidates scope).map Prod.fst).Sublist candidates ∧
      (∀ b ∈ bindings sha256 messages candidates scope, Projected messages entries b) ∧
      ∀ i, (∀ d ∈ emissions, d.outputIndex ≠ i) → entries[i]? = messages[i]?.map unprojected := by
  intro emissions entries
  have hemissions : emissions = (bindings sha256 messages candidates scope).map Prod.snd := finalizeFrom_eq _ _ _ _
  obtain ⟨final, last, hfold, -, hprojected, hothers⟩ :=
    project_bindings htext ⟨4, scope, emissions, messages.map emissionIdentity⟩ rfl rfl hapart
      (List.length_map unprojected) hvisible
  have hentries : entries = final := congrArg Prod.fst hfold
  rw [hentries]
  refine ⟨hemissions, bindingsFrom_sublist _ _ _ _, hprojected, ?_⟩
  intro i hi
  rw [hothers i, List.getElem?_map]
  intro b hb
  apply hi
  rw [hemissions]
  exact List.mem_map_of_mem hb

end

/-! ## Two emissions of one summary -/

/-- A digest that keeps every byte. -/
def plainDigest (bytes : List UInt8) : String := String.ofList (bytes.map fun b => Char.ofNat b.toNat)

def sampleMessage (object : Nat) (role content : String) : Message :=
  ⟨object, role, .text content, [], "", "", "", none⟩

/-- A summary, the same summary carried in front of an answer, and a question. -/
def emittedRows : List Message :=
  [sampleMessage 0 "assistant" "Sum", sampleMessage 1 "assistant" "Sum tail", sampleMessage 2 "user" "hi"]

def emittedCandidates : List (Candidate Nat) :=
  [⟨some .summary, some "Sum", some ⟨"assistant", "Sum", "", "[]", ""⟩, some 0, none, none⟩,
    ⟨some .carrier, some "Sum", some ⟨"assistant", "Sum", "", "[]", ""⟩, some 1, some 7, none⟩]

def sampleScope : Binding := ⟨"/home", "s", "c", 0⟩

theorem emittedCandidates_span : ∀ c ∈ emittedCandidates, c.span = some "Sum" := by
  simp [emittedCandidates]

theorem emittedRows_apart : DigestsApart plainDigest emittedRows "Sum" := by
  intro m hm content hcontent
  simp only [emittedRows, List.mem_cons, List.not_mem_nil, or_false] at hm
  rcases hm with rfl | rfl | rfl <;> cases hcontent <;> decide +kernel

theorem emittedRows_visible : ∀ m ∈ emittedRows, ∀ suffix, m.content = .text ("Sum" ++ suffix) →
    suffix = "" ∨ strip suffix.toList ≠ [] := by
  intro m hm suffix hcontent
  simp only [emittedRows, List.mem_cons, List.not_mem_nil, or_false] at hm
  rcases hm with rfl | rfl | rfl
  · have hlist := congrArg String.toList (Content.text.inj hcontent)
    simp at hlist
    exact .inl hlist
  · have hlist := congrArg String.toList (Content.text.inj hcontent)
    simp at hlist
    exact .inr (by rw [← hlist]; decide)
  · have hlist := congrArg String.toList (Content.text.inj hcontent)
    simp at hlist

theorem project_finalize_twice :
    (bindings plainDigest emittedRows emittedCandidates sampleScope).length = 2 ∧
    ∀ b ∈ bindings plainDigest emittedRows emittedCandidates sampleScope,
      Projected emittedRows (projectEmittedOccurrences plainDigest emittedRows (some ⟨4, sampleScope,
        finalizeEmissionDescriptors plainDigest emittedRows emittedCandidates sampleScope,
        emittedRows.map emissionIdentity⟩)).entries b := by
  refine ⟨by decide +kernel, (project_finalize ?_ ?_ ?_).2.2.1⟩
  · simp [emittedRows, sampleMessage]
  · intro c hc span hspan
    rw [emittedCandidates_span c hc] at hspan
    cases hspan
    exact emittedRows_apart
  · intro b hb span suffix message hspan hrow hcontent
    have hc : b.1 ∈ emittedCandidates := (bindingsFrom_sublist _ _ _ _).subset (List.mem_map_of_mem hb)
    rw [emittedCandidates_span b.1 hc] at hspan
    cases hspan
    exact emittedRows_visible message (List.mem_of_getElem? hrow) suffix hcontent

end Emission
