/-
# UTF-8, byte by byte

The encoding of a scalar value by the values of its bytes, in the four ranges
of lengths, and the bit operations of a decoder as arithmetic.

Key definitions: `bytesOf`.
Key theorems: `map_encodeChar`, `eq_encodeChar`, `countP_bytesOf`.
-/
import Mathlib.Tactic

namespace Utf8

/-! ### Bits of a byte -/

/-- A continuation byte. -/
theorem and_c0_eq {n : ℕ} (h : n < 256) : n &&& 0xC0 = 0x80 ↔ 0x80 ≤ n ∧ n < 0xC0 := by
  revert n
  decide +kernel

theorem and_3f_eq (n : ℕ) : n &&& 0x3F = n % 64 := Nat.and_two_pow_sub_one_eq_mod n 6

theorem and_1f_eq (n : ℕ) : n &&& 0x1F = n % 32 := Nat.and_two_pow_sub_one_eq_mod n 5

theorem and_0f_eq (n : ℕ) : n &&& 0x0F = n % 16 := Nat.and_two_pow_sub_one_eq_mod n 4

theorem and_07_eq (n : ℕ) : n &&& 0x07 = n % 8 := Nat.and_two_pow_sub_one_eq_mod n 3

/-- Six bits more. -/
theorem shiftLeft_or_eq {p x : ℕ} (h : x < 64) : (p <<< 6) ||| x = 64 * p + x := by
  rw [← Nat.shiftLeft_add_eq_or_of_lt h, Nat.shiftLeft_eq, mul_comm]

/-! ### The bytes of a scalar value -/

/-- The values of the bytes that encode `v`. -/
def bytesOf (v : ℕ) : List ℕ :=
  if v ≤ 0x7F then [v]
  else if v ≤ 0x7FF then [0xC0 + v / 64, 0x80 + v % 64]
  else if v ≤ 0xFFFF then [0xE0 + v / 4096, 0x80 + v / 64 % 64, 0x80 + v % 64]
  else [0xF0 + v / 262144, 0x80 + v / 4096 % 64, 0x80 + v / 64 % 64, 0x80 + v % 64]

theorem toNat_le (c : Char) : c.toNat ≤ 0x10FFFF := by
  have h := c.valid
  rw [UInt32.isValidChar, Nat.isValidChar] at h
  have hval : c.val.toNat = c.toNat := rfl
  omega

theorem map_encodeChar (c : Char) : (String.utf8EncodeChar c).map UInt8.toNat = bytesOf c.toNat := by
  have hle := toNat_le c
  have hval : c.val.toNat = c.toNat := rfl
  unfold String.utf8EncodeChar bytesOf
  simp only [hval]
  split_ifs with h1 h2 h3
  all_goals
    simp only [List.map_cons, List.map_nil, UInt8.toNat_ofNat', List.cons.injEq, and_true]
    omega

theorem toNat_ofNat {v : ℕ} (hv : v.isValidChar) : (Char.ofNat v).toNat = v := by
  rw [Char.ofNat, dif_pos hv]
  rfl

/-- Bytes with the values of an encoding are the encoding. -/
theorem eq_encodeChar {v : ℕ} {bs : List UInt8} (hv : v.isValidChar) (h : bs.map UInt8.toNat = bytesOf v) :
    bs = String.utf8EncodeChar (Char.ofNat v) := by
  have hinj : Function.Injective (List.map UInt8.toNat) := List.map_injective_iff.mpr fun _ _ => UInt8.toNat_inj.mp
  refine hinj ?_
  rw [map_encodeChar, h, toNat_ofNat hv]

/-- One byte of an encoding is no continuation byte: the first. -/
theorem countP_bytesOf {v : ℕ} (hv : v ≤ 0x10FFFF) : (bytesOf v).countP (fun n => n &&& 0xC0 ≠ 0x80) = 1 := by
  have hlead : ∀ {n}, n < 256 → ¬ (0x80 ≤ n ∧ n < 0xC0) → n &&& 0xC0 ≠ 0x80 := fun hn h => (and_c0_eq hn).not.mpr h
  have hnext : ∀ n, 0x80 + n % 64 &&& 0xC0 = 0x80 := fun n => (and_c0_eq (by omega)).mpr (by omega)
  unfold bytesOf
  split_ifs with h1 h2 h3
  · simp [hlead (n := v) (by omega) (by omega)]
  · simp [hlead (n := 0xC0 + v / 64) (by omega) (by omega), hnext]
  · simp [hlead (n := 0xE0 + v / 4096) (by omega) (by omega), hnext]
  · simp [hlead (n := 0xF0 + v / 262144) (by omega) (by omega), hnext]

end Utf8
