import LcmX.EmissionRecord
import LcmX.EmissionRoundTrip
import LcmX.Lib.Fallible
import LcmX.Lib.Utf8

/-!
# A projection loses nothing

A descriptor claims at most one row, behind the row that was claimed before. The claimed row
keeps its full identity, and its content is the generated span and what is left of it.
-/
namespace Emission.Record

open PyText Reconcile Fallible

variable {num : Numbers} {sha256 : List UInt8 → String} {messages : List Message} {proof : Members}

/-! ## Cuts -/

theorem cutRow_text {output : List (List Json.Value)} {descriptor : Members} {f : Fields} {content : String} {cut : Cut}
    (h : cutRow num sha256 messages output descriptor f content = some cut) : content = cut.span ++ cut.rest := by
  rw [cutRow] at h
  simp only at h
  split at h
  · next span suffix hspan hsuffix =>
    split at h
    · cases h
    · split at h
      · cases h
      · obtain rfl := Option.some.inj h
        have hbytes : encode (span ++ suffix) = encode content.toList := by
          rw [encode_append, encode_of_decode hspan, encode_of_decode hsuffix, List.take_append_drop]
        rw [← String.toList_inj, String.toList_append, String.toList_ofList, String.toList_ofList]
        exact (encode_inj hbytes).symm
  · cases h

/-- An empty line between two pieces of a text's bytes cuts the text. -/
theorem decode_around {content : String} {front back : List UInt8}
    (h : encode content.toList = front ++ (encode ['\n', '\n'] ++ back)) :
    ∃ older span, decode front = some older ∧ decode back = some span ∧
      content.toList = older ++ ('\n' :: '\n' :: span) := by
  have hbreaks : encode ['\n', '\n'] = [10, 10] := by decide
  have hline : ∀ {c : Char}, String.utf8EncodeChar c = [10] → c = '\n' := by
    intro c hc
    have hsame : encode [c] = encode ['\n'] := by
      rw [encode_cons, hc]
      decide
    exact (List.cons_eq_cons.mp (encode_inj hsame)).1
  rw [hbreaks] at h
  obtain ⟨older, c, rest, htext, rfl, hc, hrest⟩ := encode_cut (by decide) h
  obtain ⟨x, d, span, rfl, hx, hd, rfl⟩ := encode_cut (by decide) (show encode rest = [] ++ 10 :: back from hrest.symm)
  obtain rfl : x = [] := encode_inj hx.symm
  rw [hline hc, hline hd] at htext
  exact ⟨older, span, decode_encode _, decode_encode _, htext⟩

/-- The bytes before and behind the empty line. -/
theorem bytes_around {raw : List UInt8} {start : Nat} (h : (raw.take start).drop (start - 2) = encode ['\n', '\n']) :
    raw = raw.take (start - 2) ++ (encode ['\n', '\n'] ++ raw.drop start) := by
  rw [← h, ← List.append_assoc]
  have htake : raw.take (start - 2) = (raw.take start).take (start - 2) := by
    rw [List.take_take, Nat.min_eq_left (Nat.sub_le _ _)]
  rw [htake, List.take_append_drop, List.take_append_drop]

/-- A merged row never fails to decode. -/
theorem cutMerged_cases (num : Numbers) (sha256 : List UInt8 → String) (base : Members) (f : Fields)
    (message : Message) :
    cutMerged num sha256 base f message = .ok none ∨
      ∃ cut, cutMerged num sha256 base f message = .ok (some cut) ∧
      message.content = .text (cut.rest ++ "\n\n" ++ cut.span) := by
  rw [cutMerged]
  cases hcontent : message.content with
  | other _ => exact .inl rfl
  | text content =>
    simp only
    split
    · exact .inl rfl
    · split
      · exact .inl rfl
      · next hbreaks =>
        have hline := not_not.mp (not_or.mp hbreaks).1
        obtain ⟨older, span, holder, hspan, htext⟩ := decode_around (bytes_around hline)
        rw [holder, hspan]
        simp only
        split
        · exact .inl rfl
        · refine .inr ⟨_, rfl, congrArg Content.text ?_⟩
          rw [← String.toList_inj, htext]
          simp

/-! ## The loops -/

/-- A row that is found carries the span in front of its text. -/
theorem scanRows_found {output : List (List Json.Value)} {descriptor : Members} {f : Fields}
    {searchFrom index : Nat} {message : Message}
    {cut : Cut} (rows : List (Message × Nat)) : ∀ {n : Nat},
    scanRows num sha256 messages output descriptor f searchFrom n rows = .found message index cut →
    (message, index) ∈ rows ∧ searchFrom ≤ index ∧ message.content = .text (cut.span ++ cut.rest) := by
  induction rows with
  | nil =>
    intro n h
    cases h
  | cons row rows ih =>
    intro n h
    rw [scanRows] at h
    split at h
    · obtain ⟨hmem, hrest⟩ := ih h
      exact ⟨List.mem_cons_of_mem _ hmem, hrest⟩
    · split at h
      · cases h
      · next hlater =>
        cases hcut : row.1.content.text?.bind (cutRow num sha256 messages output descriptor f) with
        | none =>
          rw [hcut] at h
          obtain ⟨hmem, hrest⟩ := ih h
          exact ⟨List.mem_cons_of_mem _ hmem, hrest⟩
        | some found =>
          rw [hcut] at h
          obtain ⟨content, hcontent, hfound⟩ := Option.bind_eq_some_iff.mp hcut
          cases h
          refine ⟨List.mem_cons_self, not_lt.mp hlater, ?_⟩
          rw [← cutRow_text hfound]
          cases hrow : row.1.content with
          | text s =>
            rw [hrow] at hcontent
            exact congrArg Content.text (Option.some.inj hcontent)
          | other _ =>
            rw [hrow] at hcontent
            cases hcontent

/-- The loop over the merged rows ends, and finds one of them or none. -/
theorem scanMerged_cases (num : Numbers) (sha256 : List UInt8 → String) (base : Members)
    (f : Fields) (rows : List (Message × Nat)) :
    scanMerged num sha256 base f rows = .ok none ∨
      ∃ message index cut, scanMerged num sha256 base f rows = .ok (some (message, index, cut)) ∧
      (message, index) ∈ rows ∧
        message.content = .text (cut.rest ++ "\n\n" ++ cut.span) := by
  induction rows with
  | nil => exact .inl rfl
  | cons row rows ih =>
    obtain hnone | ⟨cut, hcut, htext⟩ := cutMerged_cases num sha256 base f row.1
    · rw [scanMerged, bind_of_ok hnone]
      obtain hrest | ⟨message, index, cut, hfound, hmem, htext⟩ := ih
      · exact .inl hrest
      · exact .inr ⟨message, index, cut, hfound, List.mem_cons_of_mem _ hmem, htext⟩
    · rw [scanMerged, bind_of_ok hcut]
      exact .inr ⟨row.1, row.2, cut, rfl, List.mem_cons_self, htext⟩

/-! ## One descriptor -/

/-- A claimed entry differs from its full identity in the content only, which the span and what is left make up. -/
structure Recovers (entry : Entry) (span rest : String) : Prop where
  generated : entry.generatedSpan = some span
  effective : entry.effectiveIdentity = { entry.fullIdentity with content := rest }
  content : entry.fullIdentity.content = if entry.kind = some (.inr ()) then rest ++ "\n\n" ++ span else span ++ rest

/-- A row is claimed: its entry changes, and the search goes on behind it. -/
structure Claim (messages : List Message) (s t : Progress) (index : Nat) : Prop where
  later : s.searchFrom ≤ index
  next : t.searchFrom = index + 1
  entry : ∃ message update, messages[index]? = some message ∧ t.entries = s.entries.modify index update ∧
    ∀ old : Entry, old.fullIdentity = emissionIdentity message →
      (update old).fullIdentity = old.fullIdentity ∧ ∃ span rest, Recovers (update old) span rest

theorem rowEntry_recovers (descriptor : Members) (kind : EmissionKind) (f : Fields) {message : Message} {cut : Cut}
    (htext : message.content = .text (cut.span ++ cut.rest)) {old : Entry}
    (hold : old.fullIdentity = emissionIdentity message) :
    Recovers (rowEntry descriptor kind f message cut old) cut.span cut.rest where
  generated := rfl
  effective := by
    simp only [rowEntry, hold]
    rfl
  content := by
    simp only [rowEntry, hold, emissionIdentity, htext]
    rfl

theorem mergedEntry_recovers (f : Fields) {message : Message} {cut : Cut}
    (htext : message.content = .text (cut.rest ++ "\n\n" ++ cut.span))
    {old : Entry} (hold : old.fullIdentity = emissionIdentity message) :
      Recovers (mergedEntry f message cut old) cut.span cut.rest where
  generated := rfl
  effective := by
    simp only [mergedEntry, hold]
    rfl
  content := by
    simp only [mergedEntry, hold, emissionIdentity, htext]
    rfl

theorem mem_candidateRows {f : Fields} {message : Message} {index : Nat}
    (h : (message, index) ∈ candidateRows sha256 messages f) :
    messages[index]? = some message := List.mk_mem_zipIdx_iff_getElem?.mp (List.mem_of_mem_filter h)

/-- A row behind the first `n` stands at its own position. -/
theorem mem_rowsBetween {n k : Nat} {message : Message} {index : Nat}
    (h : (message, index) ∈ (messages.zipIdx.take k).drop n) :
    messages[index]? = some message ∧ n ≤ index := by
  obtain ⟨i, hi⟩ := List.mem_iff_getElem?.mp h
  rw [List.getElem?_drop, List.getElem?_take] at hi
  split at hi
  · rw [List.getElem?_zipIdx] at hi
    obtain ⟨m, hm, hpair⟩ := Option.map_eq_some_iff.mp hi
    obtain ⟨rfl, rfl⟩ := Prod.mk.inj hpair
    rw [Nat.zero_add]
    exact ⟨hm, Nat.le_add_right _ _⟩
  · cases hi

/-- What a descriptor whose fields are all there does: nothing, or one claim. -/
theorem projectFields_cases (output : List (List Json.Value)) (descriptor : Members)
    (kind : EmissionKind) (f : Fields) (s : Progress) :
    ∃ t, projectFields num sha256 messages output descriptor kind f s = .ok t ∧
    (t = s ∨ ∃ index, Claim messages s t index) := by
  rw [projectFields.eq_def]
  cases hscan : scanRows num sha256 messages output descriptor f s.searchFrom 0 (candidateRows sha256 messages f) with
  | found message index cut =>
    obtain ⟨hmem, hlater, htext⟩ := scanRows_found _ hscan
    exact ⟨_, rfl, .inr ⟨index, hlater, rfl, message, _, mem_candidateRows hmem, rfl,
      fun old hold => ⟨rfl, _, _, rowEntry_recovers descriptor kind f htext hold⟩⟩⟩
  | stopped => exact ⟨s, rfl, .inl rfl⟩
  | finished =>
    simp only
    split
    · next base _ =>
      obtain hnone | ⟨message, index, cut, hfound, hmem, htext⟩ := scanMerged_cases num sha256 base f
        ((messages.zipIdx.take f.outputIndex).drop s.searchFrom)
      · rw [bind_of_ok hnone]
        exact ⟨s, rfl, .inl rfl⟩
      · rw [bind_of_ok hfound]
        obtain ⟨hrow, hlater⟩ := mem_rowsBetween hmem
        exact ⟨_, rfl, .inr ⟨index, hlater, rfl, message, _, hrow, rfl,
          fun old hold => ⟨rfl, _, _, mergedEntry_recovers f htext hold⟩⟩⟩
    · exact ⟨s, rfl, .inl rfl⟩

theorem kindOf_unhashable {value : Json.Value} (h : isUnhashable value = true) : kindOf value = .error .typeError := by
  rw [kindOf.eq_def, if_pos h]

theorem kindOf_hashable {value : Json.Value} (h : isUnhashable value = false) : ∃ kind, kindOf value = .ok kind := by
  rw [kindOf.eq_def, if_neg (by rw [h]; decide)]
  split
  · exact ⟨_, rfl⟩
  · exact ⟨none, rfl⟩

/-- A descriptor does nothing or makes one claim, but for one whose kind has no hash. -/
theorem projectDescriptor_cases (num : Numbers) (sha256 : List UInt8 → String)
    (messages : List Message) (proof : Members) (s : Progress)
    (value : Json.Value) :
    (∃ t, projectDescriptor num sha256 messages proof s value = .ok t ∧ (t = s ∨ ∃ index, Claim messages s t index)) ∨
      projectDescriptor num sha256 messages proof s value = .error .typeError ∧
        ∃ descriptor, value = .obj descriptor ∧ isUnhashable (get descriptor "kind") = true := by
  rw [projectDescriptor.eq_def]
  split
  · next descriptor =>
    cases hkind : isUnhashable (get descriptor "kind") with
    | true =>
      refine .inr ⟨?_, descriptor, rfl, hkind⟩
      rw [kindOf_unhashable hkind]
      rfl
    | false =>
      refine .inl ?_
      obtain ⟨kind, hof⟩ := kindOf_hashable hkind
      rw [bind_of_ok hof]
      cases kind with
      | none => exact ⟨s, rfl, .inl rfl⟩
      | some kind =>
        simp only
        split
        · exact ⟨s, rfl, .inl rfl⟩
        · split
          · exact ⟨s, rfl, .inl rfl⟩
          · next f _ => exact projectFields_cases (outputOf proof) descriptor kind f s
  · exact .inl ⟨s, rfl, .inl rfl⟩

/-! ## The whole list -/

/-- The rows that the descriptors claim, one after the other. -/
inductive Claims (project : Progress → Json.Value → Except Raised Progress) (messages : List Message) :
    Progress → List Json.Value → List (Option Nat) → Progress → Prop
  | nil (s : Progress) : Claims project messages s [] [] s
  | skipped {s t : Progress} {value : Json.Value} {values : List Json.Value} {claims : List (Option Nat)} :
    project s value = .ok s → Claims project messages s values claims t →
      Claims project messages s (value :: values) (none :: claims) t
  | claimed {s mid t : Progress} {value : Json.Value} {values : List Json.Value}
      {claims : List (Option Nat)} {index : Nat} :
    project s value = .ok mid → Claim messages s mid index → Claims project messages mid values claims t →
      Claims project messages s (value :: values) (some index :: claims) t

theorem claims_of_foldlM (values : List Json.Value) : ∀ {s t : Progress},
    values.foldlM (projectDescriptor num sha256 messages proof) s = .ok t →
    ∃ claims, Claims (projectDescriptor num sha256 messages proof) messages s values claims t := by
  induction values with
  | nil =>
    intro s t h
    cases h
    exact ⟨[], .nil s⟩
  | cons value values ih =>
    intro s t h
    rw [List.foldlM_cons, bind_ok] at h
    obtain ⟨mid, hmid, hrest⟩ := h
    obtain ⟨claims, hclaims⟩ := ih hrest
    obtain ⟨mid', hstep, hcases⟩ | ⟨hraised, -⟩ := projectDescriptor_cases num sha256 messages proof s value
    · obtain rfl : mid' = mid := Except.ok.inj (hstep.symm.trans hmid)
      obtain rfl | ⟨index, hclaim⟩ := hcases
      · exact ⟨none :: claims, .skipped hstep hclaims⟩
      · exact ⟨some index :: claims, .claimed hstep hclaim hclaims⟩
    · rw [hraised] at hmid
      cases hmid

namespace Claims

variable {project : Progress → Json.Value → Except Raised Progress} {s t : Progress}
  {values : List Json.Value} {claims : List (Option Nat)}

theorem length_eq (h : Claims project messages s values claims t) : claims.length = values.length := by
  induction h with
  | nil => rfl
  | skipped _ _ ih => simp [ih]
  | claimed _ _ _ ih => simp [ih]

theorem later (h : Claims project messages s values claims t) : ∀ index, some index ∈ claims →
    s.searchFrom ≤ index := by
  induction h with
  | nil => simp
  | skipped _ _ ih =>
    intro index hindex
    exact ih index (by simpa using hindex)
  | claimed _ hclaim _ ih =>
    intro index hindex
    rw [List.mem_cons, Option.some.injEq] at hindex
    obtain rfl | hindex := hindex
    · exact hclaim.later
    · have hle := ih index hindex
      have hnext := hclaim.next
      have hlater := hclaim.later
      omega

/-- Claimed rows follow each other. -/
theorem increasing (h : Claims project messages s values claims t) : (claims.filterMap id).Pairwise (· < ·) := by
  induction h with
  | nil => exact List.Pairwise.nil
  | skipped _ _ ih => exact ih
  | @claimed _ _ _ _ _ claims index _ hclaim hrest ih =>
    rw [List.filterMap_cons_some (show id (some index) = some index from rfl), List.pairwise_cons]
    refine ⟨fun other hother => ?_, ih⟩
    obtain ⟨claim, hmem, rfl⟩ := List.mem_filterMap.mp hother
    have hle := hrest.later other hmem
    have hnext := hclaim.next
    omega

theorem entries_length (h : Claims project messages s values claims t) : t.entries.length = s.entries.length := by
  induction h with
  | nil => rfl
  | skipped _ _ ih => exact ih
  | claimed _ hclaim _ ih =>
    obtain ⟨_, _, -, hentries, -⟩ := hclaim.entry
    rw [ih, hentries, List.length_modify]

/-- A row that no descriptor claims keeps its entry. -/
theorem unclaimed (h : Claims project messages s values claims t) {index : Nat} :
    some index ∉ claims → t.entries[index]? = s.entries[index]? := by
  induction h with
  | nil => exact fun _ => rfl
  | skipped _ _ ih => exact fun hnot => ih fun hmem => hnot (List.mem_cons_of_mem _ hmem)
  | claimed _ hclaim _ ih =>
    intro hnot
    rw [List.mem_cons, not_or, Option.some.injEq] at hnot
    obtain ⟨_, _, -, hentries, -⟩ := hclaim.entry
    rw [ih hnot.2, hentries, List.getElem?_modify_ne _ _ (fun heq => hnot.1 heq.symm)]

/-- A row that a descriptor claims has an entry of its message. -/
theorem claimed_entry (h : Claims project messages s values claims t)
    (hfull : ∀ (index : Nat) m (e : Entry), messages[index]? = some m → s.entries[index]? = some e →
      e.fullIdentity = emissionIdentity m)
    (hlen : s.entries.length = messages.length) {index : Nat} (hclaimed : some index ∈ claims) :
    ∃ m e, messages[index]? = some m ∧ t.entries[index]? = some e ∧
      e.fullIdentity = emissionIdentity m ∧ ∃ span rest, Recovers e span rest := by
  induction h with
  | nil => cases hclaimed
  | skipped _ _ ih => exact ih hfull hlen (by simpa using hclaimed)
  | @claimed s _ _ _ _ claims first _ hclaim hrest ih =>
    obtain ⟨message, update, hmessage, hentries, hupdate⟩ := hclaim.entry
    have hlt : first < s.entries.length := hlen ▸ (List.getElem?_eq_some_iff.mp hmessage).1
    have hold := List.getElem?_eq_getElem hlt
    have hfullold := hfull first message _ hmessage hold
    rw [List.mem_cons, Option.some.injEq] at hclaimed
    obtain rfl | hclaimed := hclaimed
    · have hnot : some index ∉ claims := by
        intro hmem
        have hle := hrest.later index hmem
        have hnext := hclaim.next
        omega
      obtain ⟨hkept, hrecovers⟩ := hupdate _ hfullold
      refine ⟨message, _, hmessage, ?_, hkept.trans hfullold, hrecovers⟩
      rw [hrest.unclaimed hnot, hentries, List.getElem?_modify_eq, hold]
      rfl
    · refine ih (fun i m e hm he => ?_) (by rw [hentries, List.length_modify, hlen]) hclaimed
      rw [hentries, List.getElem?_modify] at he
      split at he
      · next heq =>
        subst heq
        obtain rfl : message = m := Option.some.inj (hmessage.symm.trans hm)
        rw [hold] at he
        obtain rfl := Option.some.inj he
        exact (hupdate _ hfullold).1.trans hfullold
      · exact hfull i m e hm (by simpa using he)

end Claims

/-- What a projection of a list by some descriptors is. -/
structure Lossless (num : Numbers) (sha256 : List UInt8 → String) (messages : List Message)
    (proof : Members) (values : List Json.Value)
    (claims : List (Option Nat)) (entries : List Entry) : Prop where
  /-- Each descriptor claims one row or none. -/
  claimed : ∃ last, Claims (projectDescriptor num sha256 messages proof) messages
    (start messages) values claims ⟨entries, last⟩
  perDescriptor : claims.length = values.length
  increasing : (claims.filterMap id).Pairwise (· < ·)
  perMessage : entries.length = messages.length
  full : ∀ (index : Nat) m (e : Entry), messages[index]? = some m → entries[index]? = some e →
    e.fullIdentity = emissionIdentity m
  recovered : ∀ (index : Nat) (e : Entry), some index ∈ claims → entries[index]? = some e →
    ∃ span rest, Recovers e span rest
  unclaimed : ∀ (index : Nat) (e : Entry), some index ∉ claims → entries[index]? = some e →
    e.effectiveIdentity = e.fullIdentity

theorem start_entries (messages : List Message) (index : Nat) :
    (start messages).entries[index]? = messages[index]?.map unprojected :=
  List.getElem?_map

/-- A projection that returns is lossless. -/
theorem lossless_of_foldlM {values : List Json.Value} {t : Progress}
    (h : values.foldlM (projectDescriptor num sha256 messages proof) (start messages) = .ok t) :
    ∃ claims, Lossless num sha256 messages proof values claims t.entries := by
  obtain ⟨claims, hclaims⟩ := claims_of_foldlM values h
  have hlen : (start messages).entries.length = messages.length := List.length_map _
  have hstart : ∀ (index : Nat) m (e : Entry), messages[index]? = some m →
      (start messages).entries[index]? = some e → e.fullIdentity = emissionIdentity m := by
    intro index m e hm he
    rw [start_entries, hm] at he
    rw [← Option.some.inj he]
    rfl
  have hentry : ∀ index, some index ∈ claims → ∃ m e, messages[index]? = some m ∧ t.entries[index]? = some e ∧
      e.fullIdentity = emissionIdentity m ∧ ∃ span rest, Recovers e span rest :=
        fun _ => hclaims.claimed_entry hstart hlen
  refine ⟨claims, ⟨t.searchFrom, hclaims⟩, hclaims.length_eq, hclaims.increasing,
    hclaims.entries_length.trans hlen, ?_, ?_, ?_⟩
  · intro index m e hm he
    by_cases hclaimed : some index ∈ claims
    · obtain ⟨m', e', hm', he', hfull, -⟩ := hentry index hclaimed
      obtain rfl : m' = m := Option.some.inj (hm'.symm.trans hm)
      obtain rfl : e' = e := Option.some.inj (he'.symm.trans he)
      exact hfull
    · exact hstart index m e hm ((hclaims.unclaimed hclaimed).symm.trans he)
  · intro index e hclaimed he
    obtain ⟨_, e', -, he', -, hrecovers⟩ := hentry index hclaimed
    obtain rfl : e' = e := Option.some.inj (he'.symm.trans he)
    exact hrecovers
  · intro index e hclaimed he
    rw [hclaims.unclaimed hclaimed, start_entries] at he
    obtain ⟨m, -, rfl⟩ := Option.map_eq_some_iff.mp he
    rfl

theorem project_version4 (hversion : hasVersion num proof 4 = true) (messages : List Message) :
    projectEmittedOccurrences num sha256 messages (some proof) =
      (emissionsOf proof >>= fun values => values.foldlM (projectDescriptor num sha256 messages proof)
      (start messages) >>= fun s =>
        .ok ⟨s.entries, 0, messages.length⟩) := by
  rw [projectEmittedOccurrences.eq_def]
  simp only
  rw [if_neg (by rw [hversion]; decide)]
  rfl

theorem fails_emissionsOf (proof : Members) : Fails (fun e => e = .typeError) (emissionsOf proof) := by
  rw [emissionsOf]
  split
  · exact fails_ok _
  · exact fails_ok _
  · exact fails_ok _
  · split
    · exact fails_error rfl
    · exact fails_ok _

/-- The loop over the descriptors raises only at a kind that has no hash. -/
theorem fails_descriptors (values : List Json.Value) :
    Fails (fun e => e = .typeError ∧ ∃ descriptor, .obj descriptor ∈ values ∧
    isUnhashable (get descriptor "kind") = true)
    (values.foldlM (projectDescriptor num sha256 messages proof) (start messages)) := by
  refine fails_foldlM (I := fun _ => True) (fun value hvalue mid _ => ⟨fun e he => ?_, fun _ _ => trivial⟩) trivial
  obtain ⟨t, ht, -⟩ | ⟨hraised, descriptor, rfl, hkind⟩ := projectDescriptor_cases num sha256 messages proof mid value
  · rw [ht] at he
    cases he
  · rw [hraised] at he
    exact ⟨(Except.error.inj he).symm, descriptor, hvalue, hkind⟩

/-- The projection of a list by a record of version 4 loses nothing. A record without a projection
raises at emissions that are no list, or at a kind that has no hash. -/
theorem projection_lossless (num : Numbers) (sha256 : List UInt8 → String) (messages : List Message) {proof : Members}
    (hversion : hasVersion num proof 4 = true) :
    (∀ projection, projectEmittedOccurrences num sha256 messages (some proof) = .ok projection →
      ∃ values claims, emissionsOf proof = .ok values ∧
      Lossless num sha256 messages proof values claims projection.entries) ∧
    ∀ e, projectEmittedOccurrences num sha256 messages (some proof) = .error e → e = .typeError ∧
      ∀ values, emissionsOf proof = .ok values → ∃ descriptor, .obj descriptor ∈ values ∧
      isUnhashable (get descriptor "kind") = true := by
  rw [project_version4 hversion]
  constructor
  · intro projection h
    obtain ⟨values, hvalues, h⟩ := bind_ok.mp h
    obtain ⟨t, ht, h⟩ := bind_ok.mp h
    cases h
    obtain ⟨claims, hlossless⟩ := lossless_of_foldlM ht
    exact ⟨values, claims, hvalues, hlossless⟩
  · intro e h
    cases hvalues : emissionsOf proof with
    | error e' =>
      rw [hvalues] at h
      obtain rfl : e' = e := Except.error.inj h
      exact ⟨fails_emissionsOf proof _ hvalues, fun values h => by cases h⟩
    | ok values =>
      rw [hvalues] at h
      obtain ⟨hraised, hkind⟩ := (fails_descriptors values).bind (fun s _ => fails_ok _) e h
      refine ⟨hraised, fun values' h => ?_⟩
      cases h
      exact hkind

/-- Numbers that are all integers. -/
def integers : Numbers where
  same
    | .int n, .int k => n = k
    | _, _ => false
  floatLe _ _ := .ok false

/-- A record of one carrier, for the second row of a list. -/
def carrierRecord : Members :=
  [("version", .int 4), ("hermes_home", .str "/home"), ("session_id", .str "s1"),
    ("conversation_id", .str "c1"), ("reset_epoch", .null),
    ("emissions", .arr [.obj [("kind", .str "carrier"), ("role", .str "assistant"), ("same_prefix_ordinal", .int 1),
      ("output_occurrence", .obj [("index", .int 1), ("of", .int 3)]),
        ("generated_span_sha256", .str "Sum"), ("generated_span_bytes", .int 3),
      ("suffix_sha256", .str "tail"), ("suffix_length", .int 4), ("retained_source", .null),
      ("scope", .obj [("hermes_home", .str "/home"), ("session_id", .str "s1"),
        ("conversation_id", .str "c1"), ("reset_epoch", .null)])]])]

/-- The projection of three rows by the record of a carrier. -/
theorem carrier_lossless :
    (∀ projection, projectEmittedOccurrences integers plainDigest emittedRows (some carrierRecord) = .ok projection →
      ∃ values claims, emissionsOf carrierRecord = .ok values ∧
        Lossless integers plainDigest emittedRows carrierRecord values claims projection.entries) ∧
    ∀ e, projectEmittedOccurrences integers plainDigest emittedRows (some carrierRecord) = .error e → e = .typeError ∧
      ∀ values, emissionsOf carrierRecord = .ok values → ∃ descriptor, .obj descriptor ∈ values ∧
      isUnhashable (get descriptor "kind") = true :=
  projection_lossless integers plainDigest emittedRows rfl

example : (projectEmittedOccurrences integers plainDigest emittedRows (some carrierRecord)).toOption.map
    (fun p => p.entries.map fun e => (e.effectiveIdentity.content, e.generatedSpan)) =
      some [("Sum", none), (" tail", some "Sum"), ("hi", none)] := by decide +kernel

end Emission.Record
