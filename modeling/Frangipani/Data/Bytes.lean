/-
Fixed-width words as bytes, high byte first.

A word is cut into bytes by shifts and masks and put together again by shifts
and disjunctions, as C and C++ programs write it.  The statements are about the
machine words themselves; the proofs look at one bit of the natural number
behind the word.
-/
import Mathlib.Data.Nat.Bitwise

namespace Frangipani
namespace Data

/-! ## Bits of a natural number -/

/-- The byte of `n` at the offset `s`, put back at its place, has the bits of `n` there and no
others. -/
theorem testBit_byteAt (n s i : Nat) :
    ((n >>> s &&& 255) <<< s).testBit i = (decide (s ≤ i ∧ i < s + 8) && n.testBit i) := by
  rw [Nat.testBit_shiftLeft, Nat.testBit_and, Nat.testBit_shiftRight,
    show (255 : Nat) = 2 ^ 8 - 1 from rfl, Nat.testBit_two_pow_sub_one]
  by_cases hs : s ≤ i
  · rw [show s + (i - s) = i by omega, Bool.and_comm (n.testBit i), ← Bool.and_assoc]
    congr 1
    by_cases hlt : i < s + 8
    · simp [hs, hlt, show i - s < 8 by omega]
    · simp [hlt, show ¬ i - s < 8 by omega]
  · simp [hs]

theorem or_bytes {n : Nat} (hn : n < 2 ^ 32) :
    (n >>> 24 &&& 255) <<< 24 ||| (n >>> 16 &&& 255) <<< 16 ||| (n >>> 8 &&& 255) <<< 8 |||
      (n &&& 255) = n := by
  refine Nat.eq_of_testBit_eq fun i => ?_
  have hlow := testBit_byteAt n 0 i
  rw [Nat.shiftRight_zero, Nat.shiftLeft_zero] at hlow
  rw [Nat.testBit_or, Nat.testBit_or, Nat.testBit_or, testBit_byteAt, testBit_byteAt,
    testBit_byteAt, hlow]
  cases hbit : n.testBit i with
  | false => simp
  | true =>
    -- A set bit lies below the width, so one of the four bytes has it.
    have hi : i < 32 := (Nat.pow_lt_pow_iff_right (by decide)).mp
      (Nat.lt_of_le_of_lt (Nat.ge_two_pow_of_testBit hbit) hn)
    simp
    omega

theorem or_bytes_of_lt {n : Nat} (hn : n < 2 ^ 16) :
    (n >>> 8 &&& 255) <<< 8 ||| (n &&& 255) = n := by
  have hhigh : ∀ s, 16 ≤ s → n >>> s = 0 := fun s hs =>
    (Nat.shiftRight_eq_div_pow n s).trans (Nat.div_eq_of_lt
      (Nat.lt_of_lt_of_le hn (Nat.pow_le_pow_right (by decide) hs)))
  have h := or_bytes (Nat.lt_trans hn (by decide : 2 ^ 16 < 2 ^ 32))
  rwa [hhigh 24 (by decide), hhigh 16 (by decide), Nat.zero_and, Nat.zero_shiftLeft,
    Nat.zero_shiftLeft, Nat.zero_or, Nat.zero_or] at h

theorem or_halves (n : Nat) : n % 2 ^ 32 ||| (n >>> 32) <<< 32 = n := by
  refine Nat.eq_of_testBit_eq fun i => ?_
  rw [Nat.testBit_or, Nat.testBit_mod_two_pow, Nat.testBit_shiftLeft, Nat.testBit_shiftRight]
  by_cases hi : i < 32
  · simp [hi]
  · simp [hi, show 32 ≤ i by omega, show 32 + (i - 32) = i by omega]

/-- Neither half of a 64-bit number is cut in the words that carry it. -/
theorem halves_fit {n : Nat} (hn : n < 2 ^ 64) :
    n >>> 32 % 4294967296 = n >>> 32 ∧
      (n >>> 32) <<< 32 % 18446744073709551616 = (n >>> 32) <<< 32 := by
  rw [Nat.shiftRight_eq_div_pow, Nat.shiftLeft_eq]
  omega

theorem byte_shiftLeft_lt (n : Nat) {s w : Nat} (hs : s + 8 ≤ w) : (n &&& 255) <<< s < 2 ^ w := by
  have hbyte : n &&& 255 < 2 ^ 8 := Nat.and_lt_two_pow n (by decide)
  calc (n &&& 255) <<< s < 2 ^ (8 + s) := Nat.shiftLeft_lt hbyte
    _ ≤ 2 ^ w := Nat.pow_le_pow_right (by decide) (by omega)

theorem mod_and_byte (n : Nat) : n % 256 &&& 255 = n &&& 255 := by
  have hmask : ∀ m : Nat, m &&& 255 = m % 256 := fun m => Nat.and_two_pow_sub_one_eq_mod m 8
  rw [hmask, hmask, Nat.mod_mod]

/-! ## Words -/

theorem toUInt32_toUInt8_and (y : UInt32) : (y &&& 0xff).toUInt8.toUInt32 = y &&& 0xff := by
  apply UInt32.toNat_inj.mp
  simp [mod_and_byte]

theorem uint32_of_bytes (x : UInt32) :
    ((x >>> 24) &&& 0xff).toUInt8.toUInt32 <<< 24 |||
        ((x >>> 16) &&& 0xff).toUInt8.toUInt32 <<< 16 |||
        ((x >>> 8) &&& 0xff).toUInt8.toUInt32 <<< 8 |||
        (x &&& 0xff).toUInt8.toUInt32 = x := by
  rw [toUInt32_toUInt8_and, toUInt32_toUInt8_and, toUInt32_toUInt8_and, toUInt32_toUInt8_and]
  apply UInt32.toNat_inj.mp
  have hfit : ∀ n s : Nat, s + 8 ≤ 32 → (n &&& 255) <<< s % 4294967296 = (n &&& 255) <<< s :=
    fun n _ hs => Nat.mod_eq_of_lt (byte_shiftLeft_lt n hs)
  simpa [hfit] using or_bytes x.toNat_lt

theorem uint16_of_bytes (x : UInt16) :
    (((x >>> 8) &&& 0xff).toUInt8.toUInt32 <<< 8).toUInt16 |||
        (x &&& 0xff).toUInt8.toUInt32.toUInt16 = x := by
  apply UInt16.toNat_inj.mp
  -- The bytes are put together in 32 bits, so nothing is lost before the cut to 16.
  have hfit : ∀ n : Nat, (n &&& 255) <<< 8 % 65536 = (n &&& 255) <<< 8 :=
    fun n => Nat.mod_eq_of_lt (byte_shiftLeft_lt n (by decide : 8 + 8 ≤ 16))
  have hcut : ∀ n : Nat, n % 256 % 65536 = n % 256 := fun n => by omega
  simpa [hcut, mod_and_byte, hfit] using or_bytes_of_lt x.toNat_lt

theorem uint64_of_halves (x : UInt64) :
    x.toUInt32.toUInt64 ||| (x >>> 32).toUInt32.toUInt64 <<< 32 = x := by
  apply UInt64.toNat_inj.mp
  obtain ⟨hcut, hfit⟩ := halves_fit x.toNat_lt
  simpa [hcut, hfit] using or_halves x.toNat

/-- A byte is the same after a shift that keeps the sign and after one that does not. -/
theorem setWidth_sshiftRight (x : BitVec 32) {s : Nat} (hs : s + 8 ≤ 32) :
    (x.sshiftRight s).setWidth 8 = (x >>> s).setWidth 8 := by
  refine BitVec.eq_of_getLsbD_eq fun i hi => ?_
  rw [BitVec.getLsbD_setWidth, BitVec.getLsbD_setWidth, BitVec.getLsbD_sshiftRight,
    BitVec.getLsbD_ushiftRight, if_pos (by omega)]
  simp [show ¬ 32 ≤ i by omega]

/-- A byte read as a signed character and widened to 32 bits is the byte under the mask. -/
theorem signExtend_and (c : UInt8) : (c.toInt8.toInt32.toUInt32 &&& 0xff) = c.toUInt32 := by
  -- Whether the high bit fills the upper bytes depends on the byte; there are 256 of them.
  have hall : ∀ i : Fin 256,
      (UInt8.ofNat i).toInt8.toInt32.toUInt32 &&& 0xff = (UInt8.ofNat i).toUInt32 := by
    decide +kernel
  simpa using hall ⟨c.toNat, c.toNat_lt⟩

end Data
end Frangipani
