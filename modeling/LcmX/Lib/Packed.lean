import Mathlib.Data.Int.ModEq
import Mathlib.Tactic.Positivity
import Mathlib.Tactic.Ring
import Mathlib.Tactic.Zify

/-!
# Packed binary records

Fixed-width big-endian words, their two's complement reading, and a byte string
cut into records of one width.
-/
namespace Packed

/-- The `w` low bytes of a number, most significant first. -/
def bigEndian : Nat → Nat → List UInt8
  | 0, _ => []
  | w + 1, n => bigEndian w (n / 256) ++ [UInt8.ofNat (n % 256)]

/-- The number that a byte string spells, most significant byte first. -/
def ofBigEndian (bytes : List UInt8) : Nat := bytes.foldl (fun acc b => acc * 256 + b.toNat) 0

@[simp] theorem length_bigEndian (w n : Nat) : (bigEndian w n).length = w := by
  induction w generalizing n with
  | zero => rfl
  | succ w ih => simp [bigEndian, ih]

@[simp] theorem ofBigEndian_concat (bytes : List UInt8) (b : UInt8) :
    ofBigEndian (bytes ++ [b]) = ofBigEndian bytes * 256 + b.toNat := by
  simp [ofBigEndian]

theorem ofBigEndian_bigEndian (w : Nat) : ∀ n, n < 256 ^ w → ofBigEndian (bigEndian w n) = n := by
  induction w with
  | zero =>
    intro n hn
    have h0 : n = 0 := by simpa using hn
    subst h0
    rfl
  | succ w ih =>
    intro n hn
    have hdiv : n / 256 < 256 ^ w := by
      rw [pow_succ] at hn
      exact Nat.div_lt_of_lt_mul (by omega)
    have hlast : (UInt8.ofNat (n % 256)).toNat = n % 256 := by simp
    rw [bigEndian, ofBigEndian_concat, ih _ hdiv, hlast]
    omega

theorem bigEndian_ofBigEndian (bytes : List UInt8) : bigEndian bytes.length (ofBigEndian bytes) = bytes := by
  induction bytes using List.reverseRecOn with
  | nil => rfl
  | append_singleton bytes b ih =>
    have hb : b.toNat < 256 := b.toNat_lt
    have hdiv : (ofBigEndian bytes * 256 + b.toNat) / 256 = ofBigEndian bytes := by omega
    have hmod : (ofBigEndian bytes * 256 + b.toNat) % 256 = b.toNat := by omega
    rw [List.length_append, List.length_singleton, bigEndian, ofBigEndian_concat, hdiv, hmod, ih]
    simp

theorem ofBigEndian_lt (bytes : List UInt8) : ofBigEndian bytes < 256 ^ bytes.length := by
  induction bytes using List.reverseRecOn with
  | nil => simp [ofBigEndian]
  | append_singleton bytes b ih =>
    have hb : b.toNat < 256 := b.toNat_lt
    rw [List.length_append, List.length_singleton, pow_succ, ofBigEndian_concat]
    omega

/-- The values of a signed word of `w` bytes. -/
def InSigned (w : Nat) (n : Int) : Prop := -(256 ^ w : Int) ≤ 2 * n ∧ 2 * n < 256 ^ w

instance (w : Nat) (n : Int) : Decidable (InSigned w n) := inferInstanceAs (Decidable (_ ∧ _))

/-- Two's complement in `w` bytes, big-endian. -/
def packSigned (w : Nat) (n : Int) : List UInt8 := bigEndian w (n % (256 ^ w : Int)).toNat

def unpackSigned (bytes : List UInt8) : Int :=
  let n : Int := ofBigEndian bytes
  if 2 * n < 256 ^ bytes.length then n else n - 256 ^ bytes.length

@[simp] theorem length_packSigned (w : Nat) (n : Int) : (packSigned w n).length = w := length_bigEndian w _

theorem unpackSigned_packSigned {w : Nat} {n : Int} (h : InSigned w n) : unpackSigned (packSigned w n) = n := by
  obtain ⟨hlow, hhigh⟩ := h
  have hpos : (0 : Int) < 256 ^ w := by positivity
  have hnonneg := Int.emod_nonneg n hpos.ne'
  have hlt : (n % (256 ^ w : Int)).toNat < 256 ^ w := by
    zify
    rw [Int.toNat_of_nonneg hnonneg]
    exact Int.emod_lt_of_pos n hpos
  have hread : ((ofBigEndian (packSigned w n) : Nat) : Int) = n % 256 ^ w := by
    rw [packSigned, ofBigEndian_bigEndian w _ hlt, Int.toNat_of_nonneg hnonneg]
  rw [unpackSigned, hread, length_packSigned]
  -- A negative value is read back as its residue less one whole turn.
  by_cases hneg : n < 0
  · have hres : n % 256 ^ w = n + 256 ^ w := by
      rw [← Int.add_emod_right, Int.emod_eq_of_lt (by omega) (by omega)]
    rw [hres, if_neg (by omega)]
    omega
  · rw [Int.emod_eq_of_lt (by omega) (by omega), if_pos hhigh]

theorem inSigned_unpackSigned (bytes : List UInt8) : InSigned bytes.length (unpackSigned bytes) := by
  have hlt : ((ofBigEndian bytes : Nat) : Int) < 256 ^ bytes.length := by exact_mod_cast ofBigEndian_lt bytes
  unfold InSigned unpackSigned
  simp only
  split <;> omega

theorem packSigned_unpackSigned (bytes : List UInt8) : packSigned bytes.length (unpackSigned bytes) = bytes := by
  have hlt : ((ofBigEndian bytes : Nat) : Int) < 256 ^ bytes.length := by exact_mod_cast ofBigEndian_lt bytes
  have hres : unpackSigned bytes % 256 ^ bytes.length = (ofBigEndian bytes : Nat) := by
    unfold unpackSigned
    simp only
    split
    · exact Int.emod_eq_of_lt (by omega) hlt
    · rw [Int.sub_emod_right, Int.emod_eq_of_lt (by omega) hlt]
  rw [packSigned, hres, Int.toNat_natCast]
  exact bigEndian_ofBigEndian bytes

/-- The first `n` records of width `w`. -/
def records {α : Type} (w : Nat) : Nat → List α → List (List α)
  | 0, _ => []
  | n + 1, l => l.take w :: records w n (l.drop w)

theorem records_flatten {α : Type} {w : Nat} {rs : List (List α)} (h : ∀ r ∈ rs, r.length = w) :
    records w rs.length rs.flatten = rs := by
  induction rs with
  | nil => rfl
  | cons r rs ih =>
    have hr : r.length = w := h r List.mem_cons_self
    rw [List.length_cons, List.flatten_cons, records, List.take_left' hr, List.drop_left' hr,
      ih fun x hx => h x (List.mem_cons_of_mem _ hx)]

theorem flatten_records {α : Type} {w : Nat} (n : Nat) : ∀ {l : List α}, l.length = n * w →
    (records w n l).flatten = l := by
  induction n with
  | zero =>
    intro l hl
    have hnil : l = [] := List.length_eq_zero_iff.mp (by simpa using hl)
    subst hnil
    rfl
  | succ n ih =>
    intro l hl
    have hdrop : (l.drop w).length = n * w := by
      rw [List.length_drop, hl, Nat.succ_mul, Nat.add_sub_cancel]
    rw [records, List.flatten_cons, ih hdrop, List.take_append_drop]

theorem length_of_mem_records {α : Type} {w : Nat} (n : Nat) : ∀ {l r : List α}, l.length = n * w →
    r ∈ records w n l → r.length = w := by
  induction n with
  | zero =>
    intro l r _ hr
    cases hr
  | succ n ih =>
    intro l r hl hr
    have hdrop : (l.drop w).length = n * w := by
      rw [List.length_drop, hl, Nat.succ_mul, Nat.add_sub_cancel]
    cases hr with
    | head => rw [List.length_take, hl, Nat.succ_mul, Nat.min_eq_left (Nat.le_add_left ..)]
    | tail _ hr => exact ih hdrop hr

end Packed
