import FixedPoint.Mac.Basic
import Mathlib.Data.Int.ModEq

namespace FixedPoint.Mac

theorem toInt_exact_mul (a b : Int32) : (exact.mul a b).toInt = a.toInt * b.toInt := by
  have ha := a.toInt_lt
  have ha' := a.le_toInt
  have hb := b.toInt_lt
  have hb' := b.le_toInt
  have magnitude : (a.toInt * b.toInt).natAbs ≤ 2 ^ 31 * 2 ^ 31 := by
    rw [Int.natAbs_mul]
    exact Nat.mul_le_mul (by omega) (by omega)
  simp only [exact, Int64.toInt_mul, Int32.toInt_toInt64]
  exact Int.bmod_eq_of_le (by omega) (by omega)

theorem toInt_exact_mulAdd (acc : Int64) (a b : Int32) :
    (exact.mulAdd acc a b).toInt = (acc.toInt + a.toInt * b.toInt).bmod (2 ^ 64) := by
  have product := toInt_exact_mul a b
  simp only [exact] at product ⊢
  rw [Int64.toInt_add, product]

end FixedPoint.Mac
