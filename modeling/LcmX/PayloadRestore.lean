import LcmX.PayloadPlaceholder

/-!
# Externalization loses nothing

Between the passes a text is a list of characters and placeholders. No pass cuts
a placeholder, and no text around one looks like one, so the restorer finds
exactly those that were put in.
-/
namespace Ingest

open Regex PyText

/-- A character, or a payload that a placeholder stands for. -/
abbrev Segment := Char ⊕ (List Char × IngestPayload)

/-- The text with its placeholders. -/
def render (segs : List Segment) : List Char := segs.flatMap (pieceText fun held => placeholderText held.2 held.1)

/-- The text with its payloads. -/
def source (segs : List Segment) : List Char := segs.flatMap (pieceText fun held => held.2.content)

section

variable (c : Char) (held : List Char × IngestPayload) (a b : List Segment) (w : List Char)

@[simp] theorem render_nil : render [] = [] := rfl
@[simp] theorem render_inl : render (.inl c :: a) = c :: render a := rfl
@[simp] theorem render_inr : render (.inr held :: a) = placeholderText held.2 held.1 ++ render a := rfl
@[simp] theorem render_append : render (a ++ b) = render a ++ render b := List.flatMap_append
@[simp] theorem render_chars : render (w.map .inl) = w := by simp [render, List.flatMap_map, pieceText]

@[simp] theorem source_nil : source [] = [] := rfl
@[simp] theorem source_inl : source (.inl c :: a) = c :: source a := rfl
@[simp] theorem source_inr : source (.inr held :: a) = held.2.content ++ source a := rfl
@[simp] theorem source_append : source (a ++ b) = source a ++ source b := List.flatMap_append
@[simp] theorem source_chars : source (w.map .inl) = w := by simp [source, List.flatMap_map, pieceText]

end

section

variable (f : Field) (files : List (List Char × IngestPayload))

/-- A payload that can be loaded by its reference. -/
structure Stored (held : List Char × IngestPayload) : Prop where
  ref : ∀ c ∈ held.1, isStubChar c = true
  short : held.1.length ≤ 130
  named : 5 ≤ held.1.length
  file : files.find? (fun file => file.1 = held.1) = some held
  kind : held.2.kind = ingestPayloadKind
  session : held.2.sessionId = f.sessionId
  small : held.2.content.length < maxSize

def AllStored (segs : List Segment) : Prop := ∀ held, .inr held ∈ segs → Stored f files held

end

section

variable {f : Field} {files : List (List Char × IngestPayload)} {segs : List Segment}

theorem Stored.append {held : List Char × IngestPayload} (h : Stored f files held)
    (more : List (List Char × IngestPayload)) :
    Stored f (files ++ more) held :=
  { h with file := by rw [List.find?_append, h.file]; rfl }

theorem Stored.length_lt {held : List Char × IngestPayload} (h : Stored f files held) :
    (placeholderText held.2 held.1).length < 4096 :=
  length_placeholderText h.small h.short

/-! ## Cutting a text between its placeholders -/

/-- A text without an opening bracket at the front is made of characters. -/
theorem split_front {p b : List Char} (hp : '[' ∉ p) : ∀ {segs : List Segment}, render segs = p ++ b →
    ∃ rest, render rest = b ∧ source segs = p ++ source rest ∧ rest <:+ segs := by
  induction p with
  | nil => exact fun {segs} h => ⟨segs, h, rfl, List.suffix_rfl⟩
  | cons c p ih =>
    intro segs h
    cases segs with
    | nil => cases h
    | cons seg segs =>
      cases seg with
      | inl d =>
        obtain ⟨rfl, htail⟩ : d = c ∧ render segs = p ++ b := List.cons.inj h
        obtain ⟨rest, hrest, hsource, hsuffix⟩ := ih (fun hmem => hp (List.mem_cons_of_mem _ hmem)) htail
        exact ⟨rest, hrest, congrArg (d :: ·) hsource, hsuffix.trans (List.suffix_cons _ _)⟩
      | inr held =>
        obtain ⟨w, hw⟩ := placeholderText_cons held.2 held.1
        have hhead : '[' :: (w ++ render segs) = c :: (p ++ b) := by
          rw [← List.cons_append, ← hw]
          exact h
        exact absurd ((List.cons.inj hhead).1 ▸ List.mem_cons_self) hp

/-- A long text without brackets stands between the placeholders. -/
theorem split_between {p b : List Char} (hopen : '[' ∉ p) (hclose : ']' ∉ p) (hlong : 4096 ≤ p.length)
    (hstored : AllStored f files segs) : ∀ {a : List Char}, render segs = a ++ (p ++ b) →
    ∃ before after, render before = a ∧ render after = b ∧ source segs = source before ++ (p ++ source after) ∧
      before <+: segs ∧ after <:+ segs := by
  induction segs with
  | nil =>
    intro a h
    have hlen := congrArg List.length h
    simp [render] at hlen
    omega
  | cons seg segs ih =>
    intro a h
    cases seg with
    | inl c =>
      cases a with
      | nil =>
        obtain ⟨rest, hrest, hsource, hsuffix⟩ := split_front hopen h
        exact ⟨[], rest, rfl, hrest, hsource, List.nil_prefix, hsuffix⟩
      | cons d a =>
        obtain ⟨rfl, htail⟩ : c = d ∧ render segs = a ++ (p ++ b) := List.cons.inj h
        obtain ⟨before, after, hbefore, hafter, hsource, hstart, hsuffix⟩ :=
          ih (fun held hmem => hstored held (List.mem_cons_of_mem _ hmem)) htail
        refine ⟨.inl c :: before, after, ?_, hafter, ?_, ?_, hsuffix.trans (List.suffix_cons _ _)⟩
        · rw [← hbefore]
          rfl
        · exact congrArg (c :: ·) hsource
        · exact List.cons_prefix_cons.mpr ⟨rfl, hstart⟩
    | inr held =>
      have hshort := (hstored held List.mem_cons_self).length_lt
      rw [render_inr] at h
      by_cases hle : (placeholderText held.2 held.1).length ≤ a.length
      · obtain ⟨a', rfl⟩ := List.prefix_of_prefix_length_le (List.prefix_append _ _)
          (h.symm ▸ List.prefix_append _ _) hle
        rw [List.append_assoc, List.append_cancel_left_eq] at h
        obtain ⟨before, after, hbefore, hafter, hsource, hstart, hsuffix⟩ :=
          ih (fun held hmem => hstored held (List.mem_cons_of_mem _ hmem)) h
        refine ⟨.inr held :: before, after, ?_, hafter, ?_, ?_, hsuffix.trans (List.suffix_cons _ _)⟩
        · rw [← hbefore]
          rfl
        · rw [source_inr, source_inr, hsource, List.append_assoc]
        · exact List.cons_prefix_cons.mpr ⟨rfl, hstart⟩
      · -- the payload would hold the end of the placeholder
        obtain ⟨w, hw⟩ := placeholderText_concat held.2 held.1
        have hcut : placeholderText held.2 held.1 <+: a ++ p := by
          rw [← List.append_assoc] at h
          refine List.prefix_of_prefix_length_le (List.prefix_append _ _) (h.symm ▸ List.prefix_append _ _) ?_
          rw [List.length_append]
          omega
        have hlast : (placeholderText held.2 held.1)[(placeholderText held.2 held.1).length - 1]? = some ']' := by
          rw [hw]
          simp
        have hmem : (a ++ p)[(placeholderText held.2 held.1).length - 1]? = some ']' := by
          obtain ⟨rest, hrest⟩ := hcut
          rw [← hrest, List.getElem?_append_left, hlast]
          rw [hw]
          simp
        rw [List.getElem?_append_right (by omega)] at hmem
        exact absurd (List.mem_of_getElem? hmem) hclose

/-! ## One replacement -/

/-- A payload stays as it is, or its file is written and a placeholder takes its place. -/
def Replaced (f : Field) (payload : List Char) (s : Storage) (r : List Char × Storage) : Prop :=
  (r.1 = payload ∧ r.2.files = s.files) ∨ ∃ held, r.1 = placeholderText held.2 held.1 ∧ held.2.content = payload ∧
    r.2.files = s.files ++ [held] ∧ Stored f r.2.files held

theorem placeholderForPayload_replaced (h : Host) (f : Field) {payload : List Char} (hsize : payload.length < maxSize)
    (s : Storage) : Replaced f payload s (placeholderForPayload h f payload s) := by
  simp only [placeholderForPayload, externalizeIngestPayload]
  split
  · next hwritten =>
    right
    have hnew : s.files.find? (fun file => file.1 = payloadRef h (h.attempt s.calls) f payload) = none := by
      rw [List.find?_eq_none]
      intro file hfile hsame
      exact hwritten.2.2.2 (of_decide_eq_true hsame ▸ List.mem_map_of_mem hfile)
    refine ⟨(payloadRef h (h.attempt s.calls) f payload,
      ⟨ingestPayloadKind, f.role, f.sessionId, f.fieldPath, payload⟩),
      rfl, rfl, rfl, ?_⟩
    exact
      { ref := payloadRef_stub _ _ _ _
        short := length_payloadRef _ _ _ _
        named := le_length_payloadRef _ _ _ _
        file := by
          rw [List.find?_append, hnew]
          simp
        kind := rfl
        session := rfl
        small := hsize }
  · exact .inl ⟨rfl, rfl⟩

/-! ## A pass -/

section

variable {α : Type} {text : α → List Char} {g : α → Storage → List Char × Storage}

theorem piece_length_le {pieces : List (Char ⊕ α)} {m : α} (hm : .inr m ∈ pieces) :
    (text m).length ≤ (pieces.flatMap (pieceText text)).length := by
  have hsub : (pieceText text (.inr m)).Sublist (pieces.flatMap (pieceText text)) := by
    rw [List.flatMap]
    exact List.sublist_flatten_of_mem (List.mem_map_of_mem hm)
  exact hsub.length_le

/-- The first pass: the text has no placeholders yet. -/
theorem substitute_fresh {pieces : List (Char ⊕ α)}
    (hg : ∀ m, .inr m ∈ pieces → ∀ s, Replaced f (text m) s (g m s)) : ∀ s, ∃ segs more,
      render segs = (substitute g pieces s).1 ∧ source segs = pieces.flatMap (pieceText text) ∧
      (substitute g pieces s).2.files = s.files ++ more ∧ AllStored f (substitute g pieces s).2.files segs := by
  induction pieces with
  | nil =>
    intro s
    exact ⟨[], [], rfl, rfl, by simp [substitute], by simp [AllStored]⟩
  | cons piece pieces ih =>
    intro s
    have ih := ih fun m hm => hg m (List.mem_cons_of_mem _ hm)
    cases piece with
    | inl c =>
      obtain ⟨segs, more, hrender, hsource, hfiles, hstored⟩ := ih s
      refine ⟨.inl c :: segs, more, congrArg (c :: ·) hrender, congrArg (c :: ·) hsource, hfiles, ?_⟩
      intro held hheld
      cases hheld with
      | tail _ hheld => exact hstored held hheld
    | inr m =>
      obtain ⟨segs, more, hrender, hsource, hfiles, hstored⟩ := ih (g m s).2
      rw [substitute_inr]
      cases hg m List.mem_cons_self s with
      | inl hkept =>
        refine ⟨(text m).map .inl ++ segs, more, ?_, ?_, ?_, ?_⟩
        · rw [render_append, render_chars, hrender, hkept.1]
        · rw [source_append, source_chars, hsource]
          rfl
        · rw [hfiles, hkept.2]
        · intro held hheld
          rw [List.mem_append] at hheld
          cases hheld with
          | inl hheld => simp at hheld
          | inr hheld => exact hstored held hheld
      | inr hreplaced =>
        obtain ⟨held, htext, hcontent, hwritten, hheld⟩ := hreplaced
        refine ⟨.inr held :: segs, held :: more, ?_, ?_, ?_, ?_⟩
        · rw [render_inr, hrender, htext]
        · rw [source_inr, hsource, hcontent]
          rfl
        · rw [hfiles, hwritten, List.append_assoc]
          rfl
        · intro other hother
          cases hother with
          | head => exact hfiles ▸ hheld.append more
          | tail _ hother => exact hstored other hother

/-- A later pass takes long payloads without brackets from between the placeholders. -/
theorem substitute_between {pieces : List (Char ⊕ α)}
    (hg : ∀ m, .inr m ∈ pieces → (text m).length < maxSize → ∀ s, Replaced f (text m) s (g m s))
    (hpayload : ∀ m, .inr m ∈ pieces → '[' ∉ text m ∧ ']' ∉ text m ∧ 4096 ≤ (text m).length) :
    ∀ {a : List Char} {segs : List Segment} {s : Storage}, render segs = a ++ pieces.flatMap (pieceText text) →
      (source segs).length < maxSize → AllStored f s.files segs →
      ∃ segs', render segs' = a ++ (substitute g pieces s).1 ∧ source segs' = source segs ∧
        AllStored f (substitute g pieces s).2.files segs' := by
  induction pieces with
  | nil =>
    intro a segs s hrender _ hstored
    exact ⟨segs, hrender, rfl, hstored⟩
  | cons piece pieces ih =>
    intro a segs s hrender hsize hstored
    have ih := @ih (fun m hm => hg m (List.mem_cons_of_mem _ hm)) (fun m hm => hpayload m (List.mem_cons_of_mem _ hm))
    rw [List.flatMap_cons] at hrender
    cases piece with
    | inl c =>
      have hmoved : render segs = (a ++ [c]) ++ pieces.flatMap (pieceText text) := by
        rw [hrender, List.append_assoc]
        rfl
      obtain ⟨segs', hrender', hsource', hstored'⟩ := ih hmoved hsize hstored
      refine ⟨segs', ?_, hsource', hstored'⟩
      rw [hrender', List.append_assoc]
      rfl
    | inr m =>
      obtain ⟨hopen, hclose, hlong⟩ := hpayload m List.mem_cons_self
      obtain ⟨before, after, hbefore, hafter, hsource, hstart, hsuffix⟩ :=
        split_between hopen hclose hlong hstored hrender
      have hsmall : (text m).length < maxSize := by
        have hlen := congrArg List.length hsource
        simp only [List.length_append] at hlen
        omega
      rw [substitute_inr]
      cases hg m List.mem_cons_self hsmall s with
      | inl hkept =>
        have hmoved : render segs = (a ++ text m) ++ pieces.flatMap (pieceText text) := by
          rw [hrender, List.append_assoc]
          rfl
        have hsame : AllStored f (g m s).2.files segs := by rwa [hkept.2]
        obtain ⟨segs', hrender', hsource', hstored'⟩ := ih hmoved hsize hsame
        refine ⟨segs', ?_, hsource', hstored'⟩
        rw [hrender', hkept.1, List.append_assoc]
      | inr hreplaced =>
        obtain ⟨held, htext, hcontent, hwritten, hheld⟩ := hreplaced
        have hmoved : render (before ++ .inr held :: after) =
            (a ++ (g m s).1) ++ pieces.flatMap (pieceText text) := by
          rw [render_append, render_inr, hbefore, hafter, htext, List.append_assoc]
        have hsame : source (before ++ .inr held :: after) = source segs := by
          rw [hsource, source_append, source_inr, hcontent]
        have hall : AllStored f (g m s).2.files (before ++ .inr held :: after) := by
          intro other hother
          rw [List.mem_append, List.mem_cons] at hother
          rw [hwritten]
          rcases hother with hother | hother | hother
          · exact (hstored other (hstart.subset hother)).append _
          · cases hother
            exact hwritten ▸ hheld
          · exact (hstored other (hsuffix.subset hother)).append _
        obtain ⟨segs', hrender', hsource', hstored'⟩ := ih hmoved (hsame ▸ hsize) hall
        refine ⟨segs', ?_, hsource'.trans hsame, hstored'⟩
        rw [hrender', List.append_assoc]

end

/-! ## The three passes -/

variable {t w : List Char}

theorem base64Run_match {m : Match} (hm : .inr m ∈ cut base64RunRe t) :
    m.group 1 = some m.text ∧ (∀ c ∈ m.text, isBase64Char c = true) ∧ 4096 ≤ m.text.length := by
  obtain ⟨s, u, hu, hgroups, rfl⟩ := mem_pieces hm
  simp only [base64RunRe, run, List.mem_flatMap, List.mem_map] at hu
  obtain ⟨s₁, h₁, s₂, ⟨s₃, h₃, hgroup⟩, h₂⟩ := hu
  -- the assertions consume nothing
  obtain rfl : s₁ = s := by
    split at h₁
    · exact List.mem_singleton.mp h₁
    · cases h₁
  obtain rfl : u = s₂ := by
    split at h₂
    · exact List.mem_singleton.mp h₂
    · cases h₂
  obtain ⟨w, hw, hall, hlen⟩ := run_rep_char h₃
  have hreach : Reaches s₁ w u := hgroup ▸ hw
  have htext : (found s₁ u).text = w := hreach.found_text
  refine ⟨?_, htext ▸ hall, htext ▸ hlen⟩
  have hpast : u.groups = (1, s₁.pos, u.pos) :: s₃.groups := by
    rw [← hgroup]
    rfl
  simp only [Match.group, found, hpast, List.map_cons, List.find?_cons_of_pos, decide_true, Option.map_some]
  rw [hreach.text_eq, hreach.slice_eq, ← htext]
  rfl

theorem replaceBase64Run_replaced (h : Host) (f : Field) (m : Match) (hm : .inr m ∈ cut base64RunRe t)
    (hsmall : m.text.length < maxSize) (s : Storage) : Replaced f m.text s (replaceBase64Run h f m s) := by
  rw [replaceBase64Run, (base64Run_match hm).1, Option.getD_some]
  split
  · exact placeholderForPayload_replaced h f hsmall s
  · exact .inl ⟨rfl, rfl⟩

theorem wrappedBase64Blocks_text (lines : List (List Char)) : ∀ block,
    (wrappedBase64Blocks block lines).flatMap (pieceText id) = block ++ lines.flatten := by
  have hfinish : ∀ block, (finishBlock block).flatMap (pieceText id) = block := by
    intro block
    rw [finishBlock]
    split <;> simp [List.flatMap_map, pieceText]
  induction lines with
  | nil =>
    intro block
    rw [wrappedBase64Blocks, hfinish, List.flatten_nil, List.append_nil]
  | cons line lines ih =>
    intro block
    rw [wrappedBase64Blocks]
    split
    · rw [ih, List.flatten_cons, List.append_assoc]
    · rw [List.flatMap_append, List.flatMap_append, hfinish, ih, List.flatten_cons, List.append_assoc]
      simp [List.flatMap_map, pieceText]

theorem wrappedBase64Blocks_payload {lines : List (List Char)} {payload : List Char} : ∀ {block},
    .inr payload ∈ wrappedBase64Blocks block lines → looksLikeLongBase64 payload = true := by
  have hfinish : ∀ {block}, .inr payload ∈ finishBlock block → looksLikeLongBase64 payload = true := by
    intro block h
    rw [finishBlock] at h
    split at h
    · next hblock =>
      cases List.mem_singleton.mp h
      exact hblock.2.2
    · simp at h
  induction lines with
  | nil => exact hfinish
  | cons line lines ih =>
    intro block h
    rw [wrappedBase64Blocks] at h
    split at h
    · exact ih h
    · rw [List.mem_append, List.mem_append] at h
      rcases h with (h | h) | h
      · exact hfinish h
      · simp at h
      · exact ih h

theorem base64_no_bracket (h : ∀ c ∈ w, isBase64Char c = true ∨ isSpace c = true) : '[' ∉ w ∧ ']' ∉ w :=
  ⟨fun hmem => absurd (h _ hmem) (by decide), fun hmem => absurd (h _ hmem) (by decide)⟩

theorem base64Run_payload {m : Match} (hm : .inr m ∈ cut base64RunRe t) :
    '[' ∉ m.text ∧ ']' ∉ m.text ∧ 4096 ≤ m.text.length := by
  obtain ⟨-, hall, hlen⟩ := base64Run_match hm
  obtain ⟨hopen, hclose⟩ := base64_no_bracket fun c hc => .inl (hall c hc)
  exact ⟨hopen, hclose, hlen⟩

theorem looksLikeLongBase64_payload (h : looksLikeLongBase64 w = true) :
    '[' ∉ w ∧ ']' ∉ w ∧ 4096 ≤ w.length := by
  simp only [looksLikeLongBase64, decide_eq_true_eq, List.all_eq_true, Bool.or_eq_true] at h
  obtain ⟨hopen, hclose⟩ := base64_no_bracket h.2.2.2.1
  exact ⟨hopen, hclose, h.1⟩

/-- What is stored is the text, with placeholders for some of its parts. -/
theorem protect_segments (h : Host) (f : Field) {text : List Char} (hsize : text.length < maxSize) (s : Storage) :
    ∃ segs, render segs = (protectPayloadSubstrings h f text s).1 ∧ source segs = text ∧
      AllStored f (protectPayloadSubstrings h f text s).2.files segs := by
  rw [protectPayloadSubstrings]
  split
  · exact ⟨text.map .inl, render_chars text, source_chars text, by simp [AllStored]⟩
  · have hfirst : ∀ m, .inr m ∈ cut dataUriBase64Re text → ∀ s, Replaced f m.text s (replaceDataUri h f m s) := by
      intro m hm s
      have hle : m.text.length ≤ ((cut dataUriBase64Re text).flatMap (pieceText Match.text)).length :=
        piece_length_le hm
      rw [cut_text] at hle
      exact placeholderForPayload_replaced h f (lt_of_le_of_lt hle hsize) s
    obtain ⟨segs₁, -, hrender₁, hsource₁, -, hstored₁⟩ := substitute_fresh hfirst s
    rw [cut_text] at hsource₁
    generalize substitute (replaceDataUri h f) (cut dataUriBase64Re text) s = r₁ at hrender₁ hstored₁ ⊢
    obtain ⟨segs₂, hrender₂, hsource₂, hstored₂⟩ := substitute_between (replaceBase64Run_replaced h f)
      (fun m hm => base64Run_payload hm)
        (show render segs₁ = [] ++ (cut base64RunRe r₁.1).flatMap (pieceText Match.text) by
        rw [cut_text, hrender₁, List.nil_append]) (hsource₁ ▸ hsize) hstored₁
    simp only
    generalize substitute (replaceBase64Run h f) (cut base64RunRe r₁.1) r₁.2 = r₂ at hrender₂ hstored₂ ⊢
    obtain ⟨segs₃, hrender₃, hsource₃, hstored₃⟩ := substitute_between
      (fun payload _ hsmall s => placeholderForPayload_replaced h f hsmall s)
      (fun payload hm => looksLikeLongBase64_payload (wrappedBase64Blocks_payload hm))
      (show render segs₂ = [] ++ (wrappedBase64Blocks [] (splitlinesKeep r₂.1)).flatMap (pieceText id) by
        rw [wrappedBase64Blocks_text, splitlinesKeep_flatten, hrender₂]
        rfl) (hsource₂.trans hsource₁ ▸ hsize) hstored₂
    exact ⟨segs₃, hrender₃, hsource₃.trans (hsource₂.trans hsource₁), hstored₃⟩

/-! ## The restorer -/

/-- A text that is no placeholder does not start like one. -/
theorem not_prefix_of_char {c : Char} {rest : List Segment}
    (hplain : ¬ externalizedPlaceholderPrefix <:+: source (.inl c :: rest)) :
    ¬ externalizedPlaceholderPrefix <+: c :: render rest := by
  rw [externalizedPlaceholderPrefix_eq] at hplain ⊢
  rintro hstart
  obtain ⟨rfl, b, hb⟩ := List.cons_prefix_cons.mp hstart
  -- the rest of the prefix has no bracket, so it is made of characters
  have hopen : '[' ∉ "Externalized LCM ingest payload:".toList := by simp
  obtain ⟨after, -, hsource, -⟩ := split_front hopen hb.symm
  apply hplain
  rw [source_inl, hsource]
  exact ⟨[], source after, by simp⟩

theorem found_reference (held : List Char × IngestPayload) (behind rest : List Char) :
    (found ⟨behind, placeholderText held.2 held.1 ++ rest, []⟩ (pastPlaceholder behind held.1 rest held.2)).group 1 =
      some held.1 := by
  obtain ⟨w, hw⟩ : ∃ w, placeholderText held.2 held.1 = w ++ (held.1 ++ [']']) := by
    rw [placeholderText_eq]
    exact ⟨externalizedPlaceholderPrefix ++ (placeholderBody held.2 ++ (';' :: ' ' :: "ref=".toList)), by simp⟩
  have hstart : behind.length + (w ++ (held.1 ++ [']'])).length - held.1.length - 1 = (behind.reverse ++ w).length := by
    simp
    omega
  have hstop : behind.length + (w ++ (held.1 ++ [']'])).length - 1 - (behind.reverse ++ w).length = held.1.length := by
    simp
    omega
  have htext : (pastPlaceholder behind held.1 rest held.2).text = (behind.reverse ++ w) ++
      (held.1 ++ (']' :: rest)) := by
    rw [State.text, pastPlaceholder, hw]
    simp
  have hgroups : (pastPlaceholder behind held.1 rest held.2).groups =
      [(1, behind.length + (w ++ (held.1 ++ [']'])).length - held.1.length - 1,
        behind.length + (w ++ (held.1 ++ [']'])).length - 1)] := by
    rw [← hw]
    rfl
  simp only [Match.group, found, hgroups, List.map_cons, List.find?_cons_of_pos, decide_true, Option.map_some]
  rw [htext, hstart, hstop, List.drop_left, List.take_left]

theorem strip_eq_self (h : ∀ c ∈ w, isSpace c = false) : strip w = w := by
  have hfront : w.dropWhile isSpace = w := by
    cases w with
    | nil => rfl
    | cons c w => exact List.dropWhile_cons_of_neg (by simp [h c List.mem_cons_self])
  rw [strip, stripBy, hfront, List.rdropWhile_eq_self_iff]
  intro hne
  simp [h _ (List.getLast_mem hne)]

theorem load_stored {held : List Char × IngestPayload} (h : Stored f files held) :
    loadExternalizedPayload files held.1 = some held.2 := by
  rw [loadExternalizedPayload, if_neg, h.file, Option.map_some]
  rintro (hempty | hslash | hdot)
  · have := h.named
    simp [hempty] at this
  · exact (stubChar_facts (h.ref _ hslash)).2 rfl
  · have := h.named
    simp [hdot] at this

theorem restoreMatch_stored {held : List Char × IngestPayload} (h : Stored f files held) (behind rest : List Char) :
    restoreMatch files f.sessionId (found ⟨behind, placeholderText held.2 held.1 ++ rest, []⟩
      (pastPlaceholder behind held.1 rest held.2)) = held.2.content := by
  have hstrip : strip held.1 = held.1 :=
    strip_eq_self fun c hc => (valueChar_facts (stubChar_facts (h.ref c hc)).1).2.2.2
  rw [restoreMatch, found_reference, Option.getD_some, hstrip, load_stored h]
  simp [h.kind, h.session]

/-- The restorer takes the placeholders one after another, and nothing else. -/
theorem restore_segments (segs : List Segment) : ∀ {fuel : Nat} {behind : List Char}, AllStored f files segs →
    ¬ externalizedPlaceholderPrefix <:+: source segs → (render segs).length ≤ fuel →
    (pieces ingestPlaceholderRe fuel behind (render segs)).flatMap
    (pieceText (restoreMatch files f.sessionId)) = source segs := by
  induction segs with
  | nil =>
    intro fuel behind _ _ _
    cases fuel with
    | zero => rfl
    | succ fuel =>
      rw [pieces_succ, render_nil]
      have hnone : (matchAt ingestPlaceholderRe behind []).filter
          (fun t => t.ahead.length < ([] : List Char).length) = none := by
        simp
      rw [hnone]
      rfl
  | cons seg segs ih =>
    intro fuel behind hstored hplain hfuel
    have hrest : AllStored f files segs := fun held hheld => hstored held (List.mem_cons_of_mem _ hheld)
    cases seg with
    | inl c =>
      rw [render_inl] at hfuel ⊢
      have hnone : matchAt ingestPlaceholderRe behind (c :: render segs) = none := by
        rw [matchAt, ingestPlaceholderRe, run, run_lit_eq_nil (not_prefix_of_char hplain)]
        rfl
      obtain ⟨fuel, rfl⟩ : ∃ n, fuel = n + 1 := ⟨fuel - 1, by rw [List.length_cons] at hfuel; omega⟩
      rw [pieces_succ, hnone]
      have htail : ¬ externalizedPlaceholderPrefix <:+: source segs :=
        fun hinside => hplain (hinside.trans (List.suffix_cons _ _).isInfix)
      have hih := @ih fuel (c :: behind) hrest htail (by simpa using hfuel)
      rw [source_inl, ← hih]
      rfl
    | inr held =>
      have hheld := hstored held List.mem_cons_self
      have hne : held.1 ≠ [] := by
        intro hempty
        have := hheld.named
        simp [hempty] at this
      obtain ⟨w, hw⟩ := placeholderText_cons held.2 held.1
      rw [render_inr] at hfuel ⊢
      obtain ⟨fuel, rfl⟩ : ∃ n, fuel = n + 1 := ⟨fuel - 1, by rw [hw] at hfuel; simp at hfuel; omega⟩
      have hsome : (matchAt ingestPlaceholderRe behind (placeholderText held.2 held.1 ++ render segs)).filter
          (fun t => t.ahead.length < (placeholderText held.2 held.1 ++ render segs).length) =
          some (pastPlaceholder behind held.1 (render segs) held.2) := by
        rw [match_placeholder hheld.ref hne, Option.filter_eq_some_iff]
        refine ⟨rfl, ?_⟩
        rw [hw, decide_eq_true_eq, List.length_append, List.length_cons]
        change (render segs).length < _
        omega
      rw [pieces_succ, hsome]
      have htail : ¬ externalizedPlaceholderPrefix <:+: source segs :=
        fun hinside => hplain (hinside.trans (List.suffix_append _ _).isInfix)
      have hless : (render segs).length ≤ fuel := by
        rw [hw] at hfuel
        simp at hfuel
        omega
      have hih := @ih fuel ((placeholderText held.2 held.1).reverse ++ behind) hrest htail hless
      rw [List.flatMap_cons, pieceText, restoreMatch_stored hheld, source_inr, ← hih]
      rfl

end

/-- Without a placeholder the text is as it was. -/
theorem render_eq_source {segs : List Segment} (h : ¬ externalizedPlaceholderPrefix <:+: render segs) :
    render segs = source segs := by
  induction segs with
  | nil => rfl
  | cons seg segs ih =>
    cases seg with
    | inl c =>
      rw [render_inl, source_inl, ih]
      exact fun hinside => h (hinside.trans (List.suffix_cons _ _).isInfix)
    | inr held =>
      refine absurd ?_ h
      rw [render_inr, placeholderText_eq, List.append_assoc]
      exact (List.prefix_append _ _).isInfix

/-- A text without placeholders is restored from what is stored for it, whichever payloads were written. -/
theorem restore_protect (h : Host) (f : Field) (s : Storage) {text : List Char} (hsize : text.length < maxSize)
    (hplain : contains externalizedPlaceholderPrefix text = false) :
    restoreIngestPayloadPlaceholders (protectPayloadSubstrings h f text s).2.files f.sessionId
      (protectPayloadSubstrings h f text s).1 = text := by
  obtain ⟨segs, hrender, hsource, hstored⟩ := protect_segments h f hsize s
  have hinside : ¬ externalizedPlaceholderPrefix <:+: source segs := by
    rw [hsource]
    exact of_decide_eq_false hplain
  rw [restoreIngestPayloadPlaceholders]
  split
  · rw [sub, cut, ← hrender, restore_segments segs hstored hinside (Nat.le_refl _), hsource]
  · next hnone =>
    rw [← hrender] at hnone ⊢
    rw [render_eq_source fun hfound => hnone (decide_eq_true hfound), hsource]

/-- A host whose first write goes through. -/
def oneWriteHost : Host where
  attempt n := ⟨true, fun _ => 1, fun _ => 2, 255, n = 0⟩
  sha256 _ := [1, 2, 3, 4, 5, 6, 7, 8]

/-- A line with a data URI. -/
def inlineUri : List Char := "a data:;base64,".toList ++ List.replicate 256 'A' ++ " b".toList

theorem restore_inlineUri :
    (protectPayloadSubstrings oneWriteHost ⟨"user", "s", "content".toList⟩ inlineUri ⟨0, []⟩).2.files.length = 1 ∧
    restoreIngestPayloadPlaceholders
      (protectPayloadSubstrings oneWriteHost ⟨"user", "s", "content".toList⟩ inlineUri ⟨0, []⟩).2.files "s"
      (protectPayloadSubstrings oneWriteHost ⟨"user", "s", "content".toList⟩ inlineUri ⟨0, []⟩).1 = inlineUri :=
  ⟨by decide +kernel, restore_protect oneWriteHost ⟨"user", "s", "content".toList⟩ ⟨0, []⟩
    (by decide +kernel) (by decide +kernel)⟩

end Ingest
