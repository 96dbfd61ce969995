import FixedPoint.Mac.Lemmas
import FixedPoint.Mac.Variants
import FixedPoint.Proofs.Residue
import FixedPoint.Word.Shift

namespace FixedPoint.Mac

variable {M : Mac} {k : Int64} {term : Int32 → Int32 → Int64}

/-- A step multiplies the accumulator by `k` and adds the term of its pair. Both may wrap. -/
structure Affine (M : Mac) (k : Int64) (term : Int32 → Int32 → Int64) : Prop where
  mul : ∀ a b, M.mul a b = term a b
  mulAdd : ∀ acc a b, M.mulAdd acc a b = k * acc + term a b

theorem Affine.mulAdd_modEq (h : M.Affine k term) (acc : Int64) (a b : Int32) :
    (M.mulAdd acc a b).toInt ≡ k.toInt * acc.toInt + (term a b).toInt [ZMOD 2 ^ 64] := by
  rw [h.mulAdd, Int64.toInt_add, Int64.toInt_mul]
  exact (Residue.bmod_modEq _ 64).trans ((Residue.bmod_modEq _ 64).add_right _)

/-- A unit that adds its own products has the weight one. -/
theorem affine_of_mulAdd (h : ∀ acc a b, M.mulAdd acc a b = acc + M.mul a b) :
    M.Affine 1 M.mul := by
  constructor
  · intro a b
    rfl
  · intro acc a b
    rw [h, Int64.one_mul]

theorem doubling_affine : doubling.Affine 1 doubling.mul := affine_of_mulAdd fun _ _ _ => rfl

/-- The largest doubled product has no room, but its residue class is the doubled one. -/
theorem doubling_mul_modEq (a b : Int32) :
    (doubling.mul a b).toInt ≡ 2 * (a.toInt * b.toInt) [ZMOD 2 ^ 64] := by
  have shifted := Word.toInt_longShiftLeft (exact.mul a b) (k := 1) (by decide)
  rw [toInt_exact_mul, pow_one, mul_comm] at shifted
  have double : (doubling.mul a b).toInt = (2 * (a.toInt * b.toInt)).bmod (2 ^ 64) := shifted
  rw [double]
  exact Residue.bmod_modEq _ 64

theorem skewed_affine : skewed.Affine 3 skewed.mul := by
  constructor
  · intro a b
    rfl
  · intro acc a b
    simp only [skewed, Int64.mul_comm acc]

end FixedPoint.Mac
