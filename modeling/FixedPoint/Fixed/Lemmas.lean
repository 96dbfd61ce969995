import FixedPoint.Fixed.Mul
import FixedPoint.Mac.Lemmas
import FixedPoint.Word.Shift
import Mathlib.Data.Int.ModEq

namespace FixedPoint.Fixed

variable {F : Nat} {x y : Fixed F}

@[simp] theorem raw_add : (x + y).raw = x.raw + y.raw := rfl

@[simp] theorem raw_neg : (-x).raw = -x.raw := rfl

theorem toInt_raw_inj : x.raw.toInt = y.raw.toInt ↔ x = y := by
  rw [Int32.toInt_inj, Fixed.ext_iff]

theorem toInt_raw_ofInt (h : Storable F) (i : Int32) :
    (ofInt i : Fixed F).raw.toInt = (i.toInt * 2 ^ F).bmod (2 ^ 32) :=
  Word.toInt_shiftLeft i (by omega)

theorem toInt_floor (h : Storable F) : x.floor.toInt = x.raw.toInt / 2 ^ F :=
  Word.toInt_shiftRight x.raw (by omega)

theorem toInt_frac (h : Maskable F) : x.frac.toInt = x.raw.toInt % 2 ^ F :=
  Word.toInt_and_lowMask x.raw (by omega)

theorem frac_nonneg (h : Maskable F) (x : Fixed F) : 0 ≤ x.frac.toInt := by
  rw [toInt_frac h]
  exact Int.emod_nonneg _ (Int.pow_pos (by decide)).ne'

theorem frac_lt (h : Maskable F) (x : Fixed F) : x.frac.toInt < 2 ^ F := by
  rw [toInt_frac h]
  exact Int.emod_lt_of_pos _ (Int.pow_pos (by decide))

/-- The fraction counts upward from the whole part. -/
theorem toInt_raw_eq_floor_add_frac (h : Maskable F) (x : Fixed F) :
    x.raw.toInt = x.floor.toInt * 2 ^ F + x.frac.toInt := by
  rw [toInt_floor (by omega), toInt_frac h, Int.ediv_mul_add_emod]

theorem toInt_raw_narrow (h : Scalable F) (acc : Int64) :
    (narrow acc : Fixed F).raw.toInt = (acc.toInt / 2 ^ F).bmod (2 ^ 32) := by
  rw [narrow, Int64.toInt_toInt32, Word.toInt_longShiftRight acc (by omega)]

end FixedPoint.Fixed
