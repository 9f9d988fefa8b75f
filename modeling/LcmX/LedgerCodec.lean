import LcmX.Lib.Fallible
import LcmX.Lib.Packed

/-!
# The view-vector format of the ingest ledger

`encode_entries` and `decode_entries` of `ingest_ledger.py`. A vector is the
format byte 1 followed by one 57-byte record `>16sB16s16sq` for each entry.
-/
namespace IngestLedger

open Fallible Packed

abbrev Bytes := List UInt8

theorem lawfulBEq_bytes : LawfulBEq Bytes := inferInstance

inductive LedgerError where
  | ledger (message : String)
  | format (message : String)
deriving DecidableEq, Repr

/-- One row of a view. The annotation of `identity_digest` excludes `None`, the encoder tests for it. -/
structure ViewEntry where
  identityDigest : Option Bytes
  stampDigest : Option Bytes
  uidsetDigest : Option Bytes
  ref : Option Int
  isDescriptor : Bool := false
deriving DecidableEq, Repr

/-! ## The record -/

namespace Entry

def size : Nat := 57

structure Fields where
  identity : Bytes
  flags : UInt8
  stamp : Bytes
  uidset : Bytes
  ref : Int
deriving DecidableEq, Repr

structure Fields.Fits (f : Fields) : Prop where
  identity : f.identity.length = 16
  stamp : f.stamp.length = 16
  uidset : f.uidset.length = 16
  ref : InSigned 8 f.ref

def pack (f : Fields) : Bytes := f.identity ++ f.flags :: (f.stamp ++ (f.uidset ++ packSigned 8 f.ref))

def unpack (record : Bytes) : Fields where
  identity := record.take 16
  flags := (record.drop 16).headD 0
  stamp := (record.drop 17).take 16
  uidset := (record.drop 33).take 16
  ref := unpackSigned (record.drop 49)

theorem length_pack {f : Fields} (h : f.Fits) : (pack f).length = size := by
  simp [pack, size, h.identity, h.stamp, h.uidset]

theorem unpack_pack {f : Fields} (h : f.Fits) : unpack (pack f) = f := by
  obtain ⟨identity, flags, stamp, uidset, ref⟩ := f
  obtain ⟨hi, hs, hu, hr⟩ := h
  simp only at hi hs hu hr
  have hid : (pack ⟨identity, flags, stamp, uidset, ref⟩).drop 16 =
      flags :: (stamp ++ (uidset ++ packSigned 8 ref)) := List.drop_left' hi
  have hstamp : (pack ⟨identity, flags, stamp, uidset, ref⟩).drop 17 = stamp ++ (uidset ++ packSigned 8 ref) := by
    rw [show 17 = 16 + 1 from rfl, ← List.drop_drop, hid]
    rfl
  have huid : (pack ⟨identity, flags, stamp, uidset, ref⟩).drop 33 = uidset ++ packSigned 8 ref := by
    rw [show 33 = 17 + 16 from rfl, ← List.drop_drop, hstamp, List.drop_left' hs]
  have href : (pack ⟨identity, flags, stamp, uidset, ref⟩).drop 49 = packSigned 8 ref := by
    rw [show 49 = 33 + 16 from rfl, ← List.drop_drop, huid, List.drop_left' hu]
  rw [unpack, hid, hstamp, huid, href, List.take_left' hs, List.take_left' hu, unpackSigned_packSigned hr]
  simp [pack, List.take_left' hi]

theorem fits_unpack {record : Bytes} (h : record.length = size) : (unpack record).Fits := by
  have href : (record.drop 49).length = 8 := by simp [h, size]
  refine ⟨by simp [unpack, h, size], by simp [unpack, h, size], by simp [unpack, h, size], ?_⟩
  rw [← href]
  exact inSigned_unpackSigned _

theorem pack_unpack {record : Bytes} (h : record.length = size) : pack (unpack record) = record := by
  have href : packSigned 8 (unpackSigned (record.drop 49)) = record.drop 49 := by
    have hlen : (record.drop 49).length = 8 := by simp [h, size]
    rw [← hlen]
    exact packSigned_unpackSigned _
  have hflags : (record.drop 16).headD 0 :: record.drop 17 = record.drop 16 := by
    have hlt : 16 < record.length := by simp [h, size]
    rw [List.drop_eq_getElem_cons hlt, List.headD_cons]
  have huid : (record.drop 33).take 16 ++ record.drop 49 = record.drop 33 := by
    rw [show 49 = 33 + 16 from rfl, ← List.drop_drop, List.take_append_drop]
  have hstamp : (record.drop 17).take 16 ++ record.drop 33 = record.drop 17 := by
    rw [show 33 = 17 + 16 from rfl, ← List.drop_drop, List.take_append_drop]
  simp only [pack, unpack, href, huid, hstamp, hflags, List.take_append_drop]

end Entry

/-! ## The codec -/

def zeros : Bytes := List.replicate 16 0

/-- `value or bytes(16)`; empty bytes are false. -/
def orZeros : Option Bytes → Bytes
  | none => zeros
  | some value => if value.isEmpty then zeros else value

def badDigest : Option Bytes → Bool
  | none => false
  | some value => value.length != 16

def flagBits (stamp uidset descriptor unbound : Bool) : UInt8 :=
  (if stamp then 1 else 0) ||| (if uidset then 2 else 0) ||| (if descriptor then 4 else 0) |||
    (if unbound then 8 else 0)

def encodeEntry (e : ViewEntry) : Except LedgerError Bytes :=
  if badDigest e.identityDigest || badDigest e.stampDigest || badDigest e.uidsetDigest || e.identityDigest.isNone then
    .error (.format "entry digests must be 16 bytes")
  else if e.ref.isNone && e.isDescriptor then
    .error (.format "unbound entries cannot be descriptors")
  else if InSigned 8 (e.ref.getD 0) then
    .ok (Entry.pack
      { identity := e.identityDigest.getD []
        flags := flagBits e.stampDigest.isSome e.uidsetDigest.isSome e.isDescriptor e.ref.isNone
        stamp := orZeros e.stampDigest
        uidset := orZeros e.uidsetDigest
        ref := e.ref.getD 0 })
  else .error (.format "invalid entry reference or flags")

def encodeEntries (entries : List ViewEntry) : Except LedgerError Bytes := do
  let packed ← entries.mapM encodeEntry
  return 1 :: packed.flatten

def decodeEntry (record : Bytes) : Except LedgerError ViewEntry :=
  let f := Entry.unpack record
  if f.flags &&& ~~~15 ≠ 0 ∨ (f.flags &&& 8 ≠ 0 ∧ (f.ref ≠ 0 ∨ f.flags &&& 4 ≠ 0)) ∨
      (f.flags &&& 1 = 0 ∧ f.stamp ≠ zeros) ∨ (f.flags &&& 2 = 0 ∧ f.uidset ≠ zeros) then
    .error (.format "invalid entry flags or absent digest")
  else
    .ok { identityDigest := some f.identity
          stampDigest := if f.flags &&& 1 ≠ 0 then some f.stamp else none
          uidsetDigest := if f.flags &&& 2 ≠ 0 then some f.uidset else none
          ref := if f.flags &&& 8 ≠ 0 then none else some f.ref
          isDescriptor := f.flags &&& 4 ≠ 0 }

def decodeEntries (blob : Bytes) : Except LedgerError (List ViewEntry) :=
  if blob.isEmpty ∨ blob.headD 0 ≠ 1 ∨ (blob.length - 1) % Entry.size ≠ 0 then
    .error (.format "unknown or malformed entry format")
  else (records Entry.size ((blob.length - 1) / Entry.size) blob.tail).mapM decodeEntry

/-- Digests of sixteen bytes, a reference that a signed word holds, and no descriptor without one. -/
structure ViewEntry.WellFormed (e : ViewEntry) : Prop where
  identity : ∃ value, e.identityDigest = some value ∧ value.length = 16
  stamp : ∀ value ∈ e.stampDigest, value.length = 16
  uidset : ∀ value ∈ e.uidsetDigest, value.length = 16
  ref : ∀ n ∈ e.ref, -2 ^ 63 ≤ n ∧ n < 2 ^ 63
  descriptor : e.isDescriptor = true → e.ref ≠ none

theorem badDigest_eq_false {v : Option Bytes} : badDigest v = false ↔ ∀ value ∈ v, value.length = 16 := by
  cases v with
  | none => simp [badDigest]
  | some value => simp [badDigest]

theorem length_orZeros {v : Option Bytes} (h : ∀ value ∈ v, value.length = 16) : (orZeros v).length = 16 := by
  cases v with
  | none => rfl
  | some value =>
    have hlen : value.length = 16 := h value rfl
    rw [orZeros]
    split
    · rfl
    · exact hlen

theorem orZeros_some {value : Bytes} (h : value.length = 16) : orZeros (some value) = value := by
  cases value with
  | nil => cases h
  | cons b value => rfl

theorem inSigned_eight {n : Int} : InSigned 8 n ↔ -2 ^ 63 ≤ n ∧ n < 2 ^ 63 := by
  unfold InSigned
  constructor
  · rintro ⟨hlow, hhigh⟩
    constructor <;> omega
  · rintro ⟨hlow, hhigh⟩
    constructor <;> omega

/-- The fields that the encoder packs. -/
def ViewEntry.fields (e : ViewEntry) : Entry.Fields where
  identity := e.identityDigest.getD []
  flags := flagBits e.stampDigest.isSome e.uidsetDigest.isSome e.isDescriptor e.ref.isNone
  stamp := orZeros e.stampDigest
  uidset := orZeros e.uidsetDigest
  ref := e.ref.getD 0

theorem ViewEntry.WellFormed.fits {e : ViewEntry} (h : e.WellFormed) : e.fields.Fits := by
  obtain ⟨value, hvalue, hlen⟩ := h.identity
  refine ⟨?_, length_orZeros h.stamp, length_orZeros h.uidset, ?_⟩
  · rw [fields, hvalue]
    exact hlen
  · rw [inSigned_eight, fields]
    cases href : e.ref with
    | none => simp
    | some n => exact h.ref n (by rw [href]; rfl)

theorem encodeEntry_wellFormed {e : ViewEntry} (h : e.WellFormed) : encodeEntry e = .ok (Entry.pack e.fields) := by
  obtain ⟨value, hvalue, hlen⟩ := h.identity
  have hid : badDigest e.identityDigest = false := by simp [hvalue, badDigest, hlen]
  have hbound : (e.ref.isNone && e.isDescriptor) = false := by
    cases hd : e.isDescriptor with
    | false => simp
    | true =>
      have href := h.descriptor hd
      cases hr : e.ref with
      | none => exact absurd hr href
      | some n => rfl
  rw [encodeEntry, hid, badDigest_eq_false.mpr h.stamp, badDigest_eq_false.mpr h.uidset, hvalue, hbound]
  simp only [Bool.or_self, Option.isNone_some, Bool.false_eq_true, if_false]
  rw [if_pos (show InSigned 8 (e.ref.getD 0) from h.fits.ref), ViewEntry.fields, hvalue]

theorem wellFormed_of_encodeEntry {e : ViewEntry} {record : Bytes} (h : encodeEntry e = .ok record) : e.WellFormed := by
  unfold encodeEntry at h
  split at h
  · cases h
  · next hdigests =>
    simp only [Bool.or_eq_true, not_or, Bool.not_eq_true] at hdigests
    obtain ⟨⟨⟨hid, hstamp⟩, huid⟩, hnone⟩ := hdigests
    split at h
    · cases h
    · next hbound =>
      split at h
      · next hfits =>
        rw [inSigned_eight] at hfits
        cases hvalue : e.identityDigest with
        | none => simp [hvalue] at hnone
        | some value =>
          refine ⟨⟨value, hvalue, badDigest_eq_false.mp hid value hvalue⟩, badDigest_eq_false.mp hstamp,
            badDigest_eq_false.mp huid, ?_, ?_⟩
          · intro n hn
            rw [Option.mem_def.mp hn] at hfits
            exact hfits
          · intro hd href
            simp [hd, href] at hbound
      · cases h

theorem encodeEntry_error {e : ViewEntry} (h : ¬ e.WellFormed) :
    ∃ message, encodeEntry e = .error (.format message) := by
  cases henc : encodeEntry e with
  | ok record => exact absurd (wellFormed_of_encodeEntry henc) h
  | error err =>
    unfold encodeEntry at henc
    split at henc
    · cases henc
      exact ⟨_, rfl⟩
    · split at henc
      · cases henc
        exact ⟨_, rfl⟩
      · split at henc
        · cases henc
        · cases henc
          exact ⟨_, rfl⟩

/-! ## Flag bits -/

theorem flagBits_high (s u d n : Bool) : flagBits s u d n &&& ~~~15 = 0 := by
  revert s u d n
  decide

theorem flagBits_stamp (s u d n : Bool) : flagBits s u d n &&& 1 = 0 ↔ s = false := by
  revert s u d n
  decide

theorem flagBits_uidset (s u d n : Bool) : flagBits s u d n &&& 2 = 0 ↔ u = false := by
  revert s u d n
  decide

theorem flagBits_descriptor (s u d n : Bool) : flagBits s u d n &&& 4 = 0 ↔ d = false := by
  revert s u d n
  decide

theorem flagBits_unbound (s u d n : Bool) : flagBits s u d n &&& 8 = 0 ↔ n = false := by
  revert s u d n
  decide

/-- A byte without high bits is spelled by its four low ones. -/
theorem flagBits_of_low {f : UInt8} (h : f &&& ~~~15 = 0) :
    flagBits (f &&& 1 ≠ 0) (f &&& 2 ≠ 0) (f &&& 4 ≠ 0) (f &&& 8 ≠ 0) = f := by
  have hall : ∀ n : Fin 256, UInt8.ofNat n &&& ~~~15 = 0 →
      flagBits (UInt8.ofNat n &&& 1 ≠ 0) (UInt8.ofNat n &&& 2 ≠ 0) (UInt8.ofNat n &&& 4 ≠ 0)
        (UInt8.ofNat n &&& 8 ≠ 0) = UInt8.ofNat n := by
    decide +kernel
  have hf := hall ⟨f.toNat, f.toNat_lt⟩
  simp only [UInt8.ofNat_toNat] at hf
  exact hf h

/-! ## Round trips -/

/-- Decoding an encoded entry returns it. -/
theorem decodeEntry_pack {e : ViewEntry} (h : e.WellFormed) : decodeEntry (Entry.pack e.fields) = .ok e := by
  obtain ⟨value, hvalue, hlen⟩ := h.identity
  rw [decodeEntry, Entry.unpack_pack h.fits]
  have hflags : e.fields.flags = flagBits e.stampDigest.isSome e.uidsetDigest.isSome e.isDescriptor e.ref.isNone := rfl
  have hid : some e.fields.identity = e.identityDigest := by simp [ViewEntry.fields, hvalue]
  have hstamp : (if e.stampDigest.isSome then some e.fields.stamp else none) = e.stampDigest := by
    cases hs : e.stampDigest with
    | none => rfl
    | some s => simp [ViewEntry.fields, hs, orZeros_some (h.stamp s hs)]
  have huid : (if e.uidsetDigest.isSome then some e.fields.uidset else none) = e.uidsetDigest := by
    cases hu : e.uidsetDigest with
    | none => rfl
    | some u => simp [ViewEntry.fields, hu, orZeros_some (h.uidset u hu)]
  have href : (if e.ref.isNone then none else some e.fields.ref) = e.ref := by
    cases hr : e.ref with
    | none => rfl
    | some n => simp [ViewEntry.fields, hr]
  have hclean : ¬ ((e.ref.isNone = true ∧ (e.fields.ref ≠ 0 ∨ e.isDescriptor = true)) ∨
      (e.stampDigest.isSome = false ∧ e.fields.stamp ≠ zeros) ∨
        (e.uidsetDigest.isSome = false ∧ e.fields.uidset ≠ zeros)) := by
    rintro (⟨hnone, hbad⟩ | ⟨hnone, hbad⟩ | ⟨hnone, hbad⟩)
    · rw [Option.isNone_iff_eq_none] at hnone
      cases hbad with
      | inl hbad => exact hbad (by simp [ViewEntry.fields, hnone])
      | inr hd => exact h.descriptor hd hnone
    · rw [Option.isSome_eq_false_iff, Option.isNone_iff_eq_none] at hnone
      exact hbad (by simp [ViewEntry.fields, hnone, orZeros])
    · rw [Option.isSome_eq_false_iff, Option.isNone_iff_eq_none] at hnone
      exact hbad (by simp [ViewEntry.fields, hnone, orZeros])
  simp only [hflags, flagBits_high, flagBits_stamp, flagBits_uidset, flagBits_descriptor, flagBits_unbound, ne_eq,
    not_true_eq_false, false_or, Bool.not_eq_false]
  rw [if_neg hclean, hstamp, huid, href, hid, Bool.decide_eq_true]

/-- An optional digest that its flag bit announces. -/
def flagged (present : Bool) (value : Bytes) : Option Bytes := if present then some value else none

theorem orZeros_flagged {present : Bool} {value : Bytes} (hlen : value.length = 16)
    (habsent : present = true ∨ value = zeros) : orZeros (flagged present value) = value := by
  cases present with
  | true => exact orZeros_some hlen
  | false =>
    have hzero : value = zeros := by simpa using habsent
    rw [hzero]
    rfl

theorem length_of_mem_flagged {present : Bool} {value v : Bytes} (hlen : value.length = 16)
    (h : v ∈ flagged present value) : v.length = 16 := by
  cases present with
  | true =>
    cases h
    exact hlen
  | false => cases h

/-- The entry that a record's fields spell. -/
def Entry.Fields.entry (f : Entry.Fields) : ViewEntry where
  identityDigest := some f.identity
  stampDigest := flagged (f.flags &&& 1 ≠ 0) f.stamp
  uidsetDigest := flagged (f.flags &&& 2 ≠ 0) f.uidset
  ref := if f.flags &&& 8 ≠ 0 then none else some f.ref
  isDescriptor := f.flags &&& 4 ≠ 0

/-- The records that the decoder lets through. -/
structure Entry.Fields.Clean (f : Entry.Fields) : Prop where
  high : f.flags &&& ~~~15 = 0
  unbound : f.flags &&& 8 = 0 ∨ f.ref = 0 ∧ f.flags &&& 4 = 0
  stamp : f.flags &&& 1 ≠ 0 ∨ f.stamp = zeros
  uidset : f.flags &&& 2 ≠ 0 ∨ f.uidset = zeros

theorem decodeEntry_inv {record : Bytes} {e : ViewEntry} (h : decodeEntry record = .ok e) :
    (Entry.unpack record).Clean ∧ e = (Entry.unpack record).entry := by
  unfold decodeEntry at h
  simp only at h
  split at h
  · cases h
  · next hclean =>
    simp only [not_or, not_and_or, not_not, ne_eq] at hclean
    obtain ⟨hhigh, hunbound, hstamp, huid⟩ := hclean
    cases h
    refine ⟨⟨hhigh, hunbound, hstamp, huid⟩, ?_⟩
    simp [Entry.Fields.entry, flagged]

theorem Entry.Fields.Clean.wellFormed {f : Entry.Fields} (h : f.Clean) (hfits : f.Fits) : f.entry.WellFormed := by
  refine ⟨⟨f.identity, rfl, hfits.identity⟩, fun v hv => length_of_mem_flagged hfits.stamp hv,
    fun v hv => length_of_mem_flagged hfits.uidset hv, ?_, ?_⟩
  · intro n hn
    simp only [entry] at hn
    split at hn
    · cases hn
    · cases hn
      exact inSigned_eight.mp hfits.ref
  · intro hd hr
    simp only [entry, ne_eq, decide_eq_true_eq] at hd hr
    split at hr
    · next hbit =>
      cases h.unbound with
      | inl hbound => exact hbit hbound
      | inr hnone => exact hd hnone.2
    · cases hr

theorem Entry.Fields.Clean.fields_entry {f : Entry.Fields} (h : f.Clean) (hfits : f.Fits) : f.entry.fields = f := by
  have hflags : f.entry.fields.flags = f.flags := by
    have hs : f.entry.stampDigest.isSome = decide (f.flags &&& 1 ≠ 0) := by
      by_cases hb : f.flags &&& 1 = 0 <;> simp [entry, flagged, hb]
    have hu : f.entry.uidsetDigest.isSome = decide (f.flags &&& 2 ≠ 0) := by
      by_cases hb : f.flags &&& 2 = 0 <;> simp [entry, flagged, hb]
    have hn : f.entry.ref.isNone = decide (f.flags &&& 8 ≠ 0) := by
      by_cases hb : f.flags &&& 8 = 0 <;> simp [entry, hb]
    rw [ViewEntry.fields, hs, hu, hn]
    exact flagBits_of_low h.high
  have hstamp : f.entry.fields.stamp = f.stamp := orZeros_flagged hfits.stamp (by simpa using h.stamp)
  have huid : f.entry.fields.uidset = f.uidset := orZeros_flagged hfits.uidset (by simpa using h.uidset)
  have href : f.entry.fields.ref = f.ref := by
    by_cases hb : f.flags &&& 8 = 0
    · simp [ViewEntry.fields, entry, hb]
    · have hzero : f.ref = 0 := (h.unbound.resolve_left hb).1
      simp [ViewEntry.fields, entry, hb, hzero]
  obtain ⟨identity, flags, stamp, uidset, ref⟩ := f
  rw [Entry.Fields.mk.injEq]
  exact ⟨rfl, hflags, hstamp, huid, href⟩

/-- What the decoder accepts is well formed and packs to the same record. -/
theorem decodeEntry_ok {record : Bytes} {e : ViewEntry} (hlen : record.length = Entry.size)
    (h : decodeEntry record = .ok e) : e.WellFormed ∧ Entry.pack e.fields = record := by
  have hfits := Entry.fits_unpack hlen
  obtain ⟨hclean, rfl⟩ := decodeEntry_inv h
  refine ⟨hclean.wellFormed hfits, ?_⟩
  rw [hclean.fields_entry hfits, Entry.pack_unpack hlen]

theorem encodeEntries_wellFormed {entries : List ViewEntry} (h : ∀ e ∈ entries, e.WellFormed) :
    encodeEntries entries = .ok (1 :: (entries.map fun e => Entry.pack e.fields).flatten) := by
  have hpacked : entries.mapM encodeEntry = .ok (entries.map fun e => Entry.pack e.fields) := by
    induction entries with
    | nil => rfl
    | cons e entries ih =>
      rw [List.mapM_cons, encodeEntry_wellFormed (h e List.mem_cons_self),
        ih fun x hx => h x (List.mem_cons_of_mem _ hx)]
      rfl
  rw [encodeEntries, hpacked]
  rfl

theorem wellFormed_of_encodeEntries {entries : List ViewEntry} {blob : Bytes} (h : encodeEntries entries = .ok blob) :
    ∀ e ∈ entries, e.WellFormed := by
  simp only [encodeEntries, bind_ok] at h
  obtain ⟨packed, hpacked, -⟩ := h
  have hall := mapM_ok hpacked
  clear hpacked
  induction hall with
  | nil => exact fun e he => nomatch he
  | cons hrecord _ ih =>
    intro e he
    cases he with
    | head => exact wellFormed_of_encodeEntry hrecord
    | tail _ he => exact ih e he

theorem encodeEntries_error {entries : List ViewEntry} (h : ∃ e ∈ entries, ¬ e.WellFormed) :
    ∃ message, encodeEntries entries = .error (.format message) := by
  have hfail : ∃ message, entries.mapM encodeEntry = .error (.format message) := by
    induction entries with
    | nil => simp at h
    | cons e entries ih =>
      by_cases he : e.WellFormed
      · have hrest : ∃ x ∈ entries, ¬ x.WellFormed := by
          simpa [he] using h
        obtain ⟨message, hmessage⟩ := ih hrest
        refine ⟨message, ?_⟩
        rw [List.mapM_cons, encodeEntry_wellFormed he, hmessage]
        rfl
      · obtain ⟨message, hmessage⟩ := encodeEntry_error he
        refine ⟨message, ?_⟩
        rw [List.mapM_cons, hmessage]
        rfl
  obtain ⟨message, hmessage⟩ := hfail
  refine ⟨message, ?_⟩
  rw [encodeEntries, hmessage]
  rfl

theorem decodeEntries_flatten {packed : List Bytes} (hlen : ∀ r ∈ packed, r.length = Entry.size) :
    decodeEntries (1 :: packed.flatten) = packed.mapM decodeEntry := by
  have hsum : packed.flatten.length = packed.length * Entry.size := by
    rw [List.length_flatten, List.map_congr_left hlen]
    simp
  have hpos : 0 < Entry.size := by decide
  rw [decodeEntries, if_neg]
  · rw [List.length_cons, Nat.add_sub_cancel, hsum, Nat.mul_div_cancel _ hpos, List.tail_cons, records_flatten hlen]
  · simp [hsum]

theorem decodeEntries_inv {blob : Bytes} {entries : List ViewEntry} (h : decodeEntries blob = .ok entries) :
    ∃ packed : List Bytes, (∀ r ∈ packed, r.length = Entry.size) ∧ blob = 1 :: packed.flatten ∧
      packed.mapM decodeEntry = .ok entries := by
  unfold decodeEntries at h
  split at h
  · cases h
  · next hformat =>
    simp only [not_or, not_not, ne_eq] at hformat
    obtain ⟨hne, hone, hmod⟩ := hformat
    cases blob with
    | nil => simp at hne
    | cons b blob =>
      have hb : b = 1 := hone
      have hsize : blob.length = blob.length / Entry.size * Entry.size :=
        (Nat.div_mul_cancel (Nat.dvd_of_mod_eq_zero (by simpa using hmod))).symm
      rw [List.length_cons, Nat.add_sub_cancel, List.tail_cons] at h
      exact ⟨_, fun r hr => length_of_mem_records _ hsize hr, by rw [hb, flatten_records _ hsize], h⟩

theorem decodeEntries_encodeEntries {entries : List ViewEntry} {blob : Bytes} (h : encodeEntries entries = .ok blob) :
    decodeEntries blob = .ok entries := by
  have hwf := wellFormed_of_encodeEntries h
  rw [encodeEntries_wellFormed hwf] at h
  cases h
  rw [decodeEntries_flatten]
  · induction entries with
    | nil => rfl
    | cons e entries ih =>
      rw [List.map_cons, List.mapM_cons, decodeEntry_pack (hwf e List.mem_cons_self),
        ih fun x hx => hwf x (List.mem_cons_of_mem _ hx)]
      rfl
  · intro r hr
    obtain ⟨e, he, rfl⟩ := List.mem_map.mp hr
    exact Entry.length_pack (hwf e he).fits

theorem encodeEntries_decodeEntries {blob : Bytes} {entries : List ViewEntry} (h : decodeEntries blob = .ok entries) :
    encodeEntries entries = .ok blob := by
  obtain ⟨packed, hlen, rfl, hpacked⟩ := decodeEntries_inv h
  have hall := mapM_ok hpacked
  have hback : (∀ e ∈ entries, e.WellFormed) ∧ entries.map (fun e => Entry.pack e.fields) = packed := by
    clear h hpacked
    induction hall with
    | nil => exact ⟨List.forall_mem_nil _, rfl⟩
    | cons hrecord _ ih =>
      obtain ⟨hwf, hpack⟩ := decodeEntry_ok (hlen _ List.mem_cons_self) hrecord
      obtain ⟨hrest, hmap⟩ := ih fun r hr => hlen r (List.mem_cons_of_mem _ hr)
      exact ⟨List.forall_mem_cons.mpr ⟨hwf, hrest⟩, by rw [List.map_cons, hpack, hmap]⟩
  rw [encodeEntries_wellFormed hback.1, hback.2]

/-- The codec is a bijection between the lists of well-formed entries and the accepted byte strings. -/
theorem entries_codec :
    (∀ entries, (∀ e ∈ entries, ViewEntry.WellFormed e) →
      ∃ blob, encodeEntries entries = .ok blob ∧ decodeEntries blob = .ok entries) ∧
    (∀ blob entries, decodeEntries blob = .ok entries → encodeEntries entries = .ok blob) ∧
    (∀ entries, (∃ message, encodeEntries entries = .error (.format message)) ↔ ∃ e ∈ entries, ¬ e.WellFormed) ∧
    ∀ blob, (∃ entries, decodeEntries blob = .ok entries) ↔ ∃ entries, encodeEntries entries = .ok blob := by
  refine ⟨?_, fun blob entries => encodeEntries_decodeEntries, ?_, ?_⟩
  · intro entries hwf
    have henc := encodeEntries_wellFormed hwf
    exact ⟨_, henc, decodeEntries_encodeEntries henc⟩
  · intro entries
    refine ⟨?_, encodeEntries_error⟩
    rintro ⟨message, hmessage⟩
    by_contra hall
    push Not at hall
    rw [encodeEntries_wellFormed hall] at hmessage
    cases hmessage
  · intro blob
    exact ⟨fun ⟨entries, h⟩ => ⟨entries, encodeEntries_decodeEntries h⟩,
      fun ⟨entries, h⟩ => ⟨entries, decodeEntries_encodeEntries h⟩⟩

theorem entries_codec_zero_stamp :
    ∃ blob, encodeEntries [⟨some zeros, some zeros, none, some (-1), true⟩,
      ⟨some zeros, none, none, none, false⟩] = .ok blob ∧
      decodeEntries blob = .ok [⟨some zeros, some zeros, none, some (-1), true⟩,
      ⟨some zeros, none, none, none, false⟩] := by
  apply entries_codec.1
  intro e he
  simp only [List.mem_cons, List.not_mem_nil, or_false] at he
  cases he with
  | inl he =>
    subst he
    exact ⟨⟨zeros, rfl, rfl⟩, by simp [zeros], by simp, by simp, by simp⟩
  | inr he =>
    subst he
    exact ⟨⟨zeros, rfl, rfl⟩, by simp, by simp, by simp, by simp⟩

end IngestLedger
