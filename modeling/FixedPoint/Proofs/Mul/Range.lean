import FixedPoint.Fixed.Order
import FixedPoint.Proofs.Whole

namespace FixedPoint.Fixed

variable {F : Nat} {x y a : Fixed F}

/-- The product, rounded down, is a word. -/
def ProductFits (x y : Fixed F) : Prop :=
  -2 ^ 31 ≤ x.raw.toInt * y.raw.toInt / 2 ^ F ∧ x.raw.toInt * y.raw.toInt / 2 ^ F < 2 ^ 31

instance (x y : Fixed F) : Decidable (ProductFits x y) := inferInstanceAs (Decidable (_ ∧ _))

theorem ProductFits.toInt_raw_mul (h : Scalable F) (fits : ProductFits x y) :
    (x * y).raw.toInt = x.raw.toInt * y.raw.toInt / 2 ^ F := by
  rw [mul_eq_ofSteps h]
  exact toInt_raw_ofSteps_eq_iff.2 fits

/-- A factor that is not negative and less than one. -/
structure Damping (a : Fixed F) : Prop where
  nonneg : 0 ≤ a
  lt_one : a < one

namespace Damping

theorem toInt_nonneg (d : Damping a) : 0 ≤ a.raw.toInt := le_iff.1 d.nonneg

theorem toInt_lt (h : Scalable F) (d : Damping a) : a.raw.toInt < 2 ^ F := by
  have below := lt_iff.1 d.lt_one
  rwa [toInt_raw_one h] at below

theorem floor_between (h : Scalable F) (d : Damping a) (x : Fixed F) :
    min x.raw.toInt 0 ≤ x.raw.toInt * a.raw.toInt / 2 ^ F ∧
      x.raw.toInt * a.raw.toInt / 2 ^ F ≤ max x.raw.toInt 0 :=
  Residue.mul_ediv_between d.toInt_nonneg (d.toInt_lt h) _

/-- Scaling a value down never wraps. -/
theorem productFits (h : Scalable F) (d : Damping a) (x : Fixed F) : ProductFits x a := by
  obtain ⟨low, high⟩ := d.floor_between h x
  have above := x.raw.le_toInt
  have below := x.raw.toInt_lt
  exact ⟨by omega, by omega⟩

theorem toInt_raw_mul (h : Scalable F) (d : Damping a) (x : Fixed F) :
    (x * a).raw.toInt = x.raw.toInt * a.raw.toInt / 2 ^ F :=
  (d.productFits h x).toInt_raw_mul h

theorem mul_between (h : Scalable F) (d : Damping a) (x : Fixed F) :
    min x.raw.toInt 0 ≤ (x * a).raw.toInt ∧ (x * a).raw.toInt ≤ max x.raw.toInt 0 := by
  rw [d.toInt_raw_mul h]
  exact d.floor_between h x

end Damping

end FixedPoint.Fixed
