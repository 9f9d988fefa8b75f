import LcmX.Lib.PyText

/-!
# Pieces of encoded texts

A piece of a text's bytes decodes where it is cut at an ASCII character, since no other
character has a byte of one.
-/
namespace PyText

theorem encode_of_decode {bytes : List UInt8} {text : List Char} (h : decode bytes = some text) :
    encode text = bytes := by
  obtain ⟨chars, hchars, rfl⟩ := Option.map_eq_some_iff.mp h
  have hsome : bytes.toByteArray.utf8Decode?.isSome = true := by
    rw [hchars]
    rfl
  have hget : bytes.toByteArray.utf8Decode?.get hsome = chars := by simp [hchars]
  have hbytes := ByteArray.utf8Encode_get_utf8Decode? (b := bytes.toByteArray) (h := hsome)
  rw [hget, ← encode_utf8Encode] at hbytes
  exact List.toByteArray_inj.mp hbytes

/-- An ASCII byte is a character of its own. -/
theorem encodeChar_of_ascii {c : Char} {b : UInt8} (hmem : b ∈ String.utf8EncodeChar c) (hb : b.toNat < 128) :
    String.utf8EncodeChar c = [b] := by
  have hbyte : ∀ n, 128 ≤ n → n < 256 → b ≠ UInt8.ofNat n := by
    rintro n hle hlt rfl
    rw [UInt8.toNat_ofNat', Nat.mod_eq_of_lt hlt] at hb
    omega
  rw [String.utf8EncodeChar] at hmem ⊢
  split at hmem
  · next hsmall =>
    rw [if_pos hsmall]
    rw [List.mem_singleton] at hmem
    rw [hmem]
  · exfalso
    split at hmem
    · simp only [List.mem_cons, List.not_mem_nil, or_false] at hmem
      rcases hmem with h | h
      · exact hbyte _ (by omega) (by omega) h
      · exact hbyte _ (by omega) (by omega) h
    · split at hmem
      · simp only [List.mem_cons, List.not_mem_nil, or_false] at hmem
        rcases hmem with h | h | h
        · exact hbyte _ (by omega) (by omega) h
        · exact hbyte _ (by omega) (by omega) h
        · exact hbyte _ (by omega) (by omega) h
      · simp only [List.mem_cons, List.not_mem_nil, or_false] at hmem
        rcases hmem with h | h | h | h
        · exact hbyte _ (by omega) (by omega) h
        · exact hbyte _ (by omega) (by omega) h
        · exact hbyte _ (by omega) (by omega) h
        · exact hbyte _ (by omega) (by omega) h

theorem encode_cons (c : Char) (text : List Char) : encode (c :: text) = String.utf8EncodeChar c ++ encode text :=
  List.flatMap_cons

/-- An ASCII byte cuts a text at a character. -/
theorem encode_cut {b : UInt8} (hb : b.toNat < 128) {text : List Char} :
    ∀ {front back : List UInt8}, encode text = front ++ b :: back →
    ∃ x c y, text = x ++ c :: y ∧ front = encode x ∧ String.utf8EncodeChar c = [b] ∧ back = encode y := by
  induction text with
  | nil =>
    intro front back h
    simp at h
  | cons c text ih =>
    intro front back h
    rw [encode_cons] at h
    obtain ⟨rest, hfront, hrest⟩ | ⟨rest, hchar, hrest⟩ := List.append_eq_append_iff.mp h
    · obtain ⟨x, d, y, rfl, rfl, hd, rfl⟩ := ih hrest
      exact ⟨c :: x, d, y, rfl, by rw [hfront, encode_cons], hd, rfl⟩
    · cases rest with
      | nil =>
        rw [List.append_nil] at hchar
        obtain ⟨x, d, y, rfl, hx, hd, rfl⟩ := ih (show encode text = [] ++ b :: back from hrest.symm)
        obtain rfl : x = [] := encode_inj hx.symm
        exact ⟨[c], d, y, rfl, by rw [← hchar]; simp [encode], hd, rfl⟩
      | cons b' rest =>
        obtain ⟨rfl, hback⟩ := List.cons_eq_cons.mp hrest
        have halone := encodeChar_of_ascii (hchar ▸ List.mem_append_right _ List.mem_cons_self) hb
        rw [halone] at hchar
        obtain ⟨rfl, rfl⟩ : front = [] ∧ rest = [] := by
          cases front with
          | nil => exact ⟨rfl, (List.cons_eq_cons.mp hchar).2.symm⟩
          | cons _ _ => simp at hchar
        exact ⟨[], c, text, rfl, rfl, halone, by simpa using hback⟩

end PyText
