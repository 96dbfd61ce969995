import Mathlib.Data.Int.ModEq

namespace FixedPoint.Word

theorem toNat_shiftAmount {k : Nat} (h : k < 32) :
    ((Int32.ofNat k).toBitVec.smod 32).toNat = k := by
  have all : ∀ k : Fin 32, ((Int32.ofNat k).toBitVec.smod 32).toNat = k := by decide
  exact all ⟨k, h⟩

theorem toNat_longShiftAmount {k : Nat} (h : k < 64) :
    ((Int64.ofNat k).toBitVec.smod 64).toNat = k := by
  have all : ∀ k : Fin 64, ((Int64.ofNat k).toBitVec.smod 64).toNat = k := by decide
  exact all ⟨k, h⟩

/-- Shifting right rounds toward negative infinity. -/
theorem toInt_shiftRight (w : Int32) {k : Nat} (h : k < 32) :
    (w >>> Int32.ofNat k).toInt = w.toInt / 2 ^ k := by
  rw [← Int32.toInt_toBitVec, Int32.toBitVec_shiftRight, BitVec.toInt_sshiftRight',
    toNat_shiftAmount h, Int.shiftRight_eq_div_pow, Int32.toInt_toBitVec]
  norm_cast

theorem toInt_longShiftRight (w : Int64) {k : Nat} (h : k < 64) :
    (w >>> Int64.ofNat k).toInt = w.toInt / 2 ^ k := by
  rw [← Int64.toInt_toBitVec, Int64.toBitVec_shiftRight, BitVec.toInt_sshiftRight',
    toNat_longShiftAmount h, Int.shiftRight_eq_div_pow, Int64.toInt_toBitVec]
  norm_cast

theorem toInt_shiftLeft (w : Int32) {k : Nat} (h : k < 32) :
    (w <<< Int32.ofNat k).toInt = (w.toInt * 2 ^ k).bmod (2 ^ 32) := by
  rw [← Int32.toInt_toBitVec, Int32.toBitVec_shiftLeft, BitVec.shiftLeft_eq', toNat_shiftAmount h,
    BitVec.toInt_shiftLeft, Nat.shiftLeft_eq, ← Int32.toInt_toBitVec, BitVec.toInt_eq_toNat_bmod]
  push_cast
  rw [Int.bmod_mul_bmod]

theorem toInt_longShiftLeft (w : Int64) {k : Nat} (h : k < 64) :
    (w <<< Int64.ofNat k).toInt = (w.toInt * 2 ^ k).bmod (2 ^ 64) := by
  rw [← Int64.toInt_toBitVec, Int64.toBitVec_shiftLeft, BitVec.shiftLeft_eq',
    toNat_longShiftAmount h, BitVec.toInt_shiftLeft, Nat.shiftLeft_eq, ← Int64.toInt_toBitVec,
    BitVec.toInt_eq_toNat_bmod]
  push_cast
  rw [Int.bmod_mul_bmod]

theorem toNat_lowMask {k : Nat} (h : k < 31) :
    ((1 <<< Int32.ofNat k) - 1 : Int32).toBitVec.toNat = 2 ^ k - 1 := by
  have all : ∀ k : Fin 31, ((1 <<< Int32.ofNat k) - 1 : Int32).toBitVec.toNat = 2 ^ k.val - 1 := by
    decide
  exact all ⟨k, h⟩

/-- The low bits of a word are its remainder, also when the word is negative. -/
theorem toInt_and_lowMask (w : Int32) {k : Nat} (h : k < 31) :
    (w &&& ((1 <<< Int32.ofNat k) - 1)).toInt = w.toInt % 2 ^ k := by
  have masked : (w &&& ((1 <<< Int32.ofNat k) - 1)).toBitVec.toNat = w.toBitVec.toNat % 2 ^ k := by
    rw [Int32.toBitVec_and, BitVec.toNat_and, toNat_lowMask h, Nat.and_two_pow_sub_one_eq_mod]
  have small : 2 ^ k ≤ 2 ^ 30 := Nat.pow_le_pow_right (by decide) (by omega)
  have below := Nat.mod_lt w.toBitVec.toNat (Nat.two_pow_pos k)
  have divides : ((2 ^ k : Nat) : Int) ∣ ((2 ^ 32 : Nat) : Int) :=
    Int.natCast_dvd_natCast.2 (Nat.pow_dvd_pow 2 (by omega))
  have reading := Int.emod_emod_of_dvd (((w.toBitVec.toNat : Nat) : Int).bmod (2 ^ 32)) divides
  rw [Int.bmod_emod, Int.emod_emod_of_dvd _ divides] at reading
  rw [← Int32.toInt_toBitVec, BitVec.toInt_eq_toNat_of_lt (by omega), masked,
    ← Int32.toInt_toBitVec, BitVec.toInt_eq_toNat_bmod]
  exact_mod_cast reading

end FixedPoint.Word
