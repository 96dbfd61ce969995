import FixedPoint.Fixed.Lemmas
import FixedPoint.Proofs.Residue
import Mathlib.Algebra.Group.Hom.Defs
import Mathlib.Algebra.Group.Int.Defs

/-!
# Values counted in steps

The values of one format form a commutative group under the sum that wraps. Counting steps from
zero is a homomorphism from the integers into it, whose kernel is the multiples of `2 ^ 32`. So a
law about wrapped values is a law about integers, taken through `ofSteps` once.
-/

namespace FixedPoint.Fixed

variable {F : Nat}

instance : AddCommGroup (Fixed F) where
  add_assoc x y z := Fixed.ext (Int32.add_assoc x.raw y.raw z.raw)
  zero_add x := Fixed.ext (Int32.zero_add x.raw)
  add_zero x := Fixed.ext (Int32.add_zero x.raw)
  add_comm x y := Fixed.ext (Int32.add_comm x.raw y.raw)
  neg_add_cancel x := Fixed.ext (Int32.add_left_neg x.raw)
  sub_eq_add_neg x y := Fixed.ext (Int32.sub_eq_add_neg x.raw y.raw)
  nsmul := nsmulRec
  zsmul := zsmulRec

/-- The value `z` steps above zero, wrapped. -/
def ofSteps : Int →+ Fixed F where
  toFun z := ⟨Int32.ofInt z⟩
  map_zero' := rfl
  map_add' y z := Fixed.ext (Int32.ofInt_add y z)

theorem toInt_raw_ofSteps (z : Int) : (ofSteps z : Fixed F).raw.toInt = z.bmod (2 ^ 32) :=
  Int32.toInt_ofInt

@[simp] theorem ofSteps_toInt_raw (x : Fixed F) : ofSteps x.raw.toInt = x :=
  Fixed.ext (Int32.ofInt_toInt x.raw)

theorem ofSteps_one : (ofSteps 1 : Fixed F) = epsilon := rfl

theorem toInt_raw_ofSteps_modEq (z : Int) : (ofSteps z : Fixed F).raw.toInt ≡ z [ZMOD 2 ^ 32] := by
  rw [toInt_raw_ofSteps]
  exact Residue.bmod_modEq z 32

theorem ofSteps_congr {y z : Int} (h : y ≡ z [ZMOD 2 ^ 32]) :
    (ofSteps y : Fixed F) = ofSteps z := by
  rw [← toInt_raw_inj, toInt_raw_ofSteps, toInt_raw_ofSteps, Residue.bmod_congr h]

/-- A value is named by the residue class of its steps. -/
theorem ofSteps_eq_iff {z : Int} {x : Fixed F} :
    ofSteps z = x ↔ x.raw.toInt ≡ z [ZMOD 2 ^ 32] := by
  constructor
  · rintro rfl
    exact toInt_raw_ofSteps_modEq z
  · intro h
    exact (ofSteps_congr h.symm).trans (ofSteps_toInt_raw x)

theorem toInt_raw_ofSteps_eq_iff {z : Int} :
    (ofSteps z : Fixed F).raw.toInt = z ↔ -2 ^ 31 ≤ z ∧ z < 2 ^ 31 := by
  rw [toInt_raw_ofSteps, Residue.bmod_eq_self_iff]

/-- A floor is counted without a wrap exactly if the number has at most `31 + F` bits beside its
sign. -/
theorem toInt_raw_ofSteps_ediv_eq_iff {z : Int} :
    (ofSteps (z / 2 ^ F) : Fixed F).raw.toInt = z / 2 ^ F ↔
      -2 ^ (31 + F) ≤ z ∧ z < 2 ^ (31 + F) := by
  rw [toInt_raw_ofSteps_eq_iff, Residue.ediv_bounds_iff]

/-- Counting the floor of a sum. What the dropped fractions carry is the only correction. -/
theorem ofSteps_sum_ediv {ι : Type} (s : Finset ι) (f : ι → Int) :
    (ofSteps ((∑ i ∈ s, f i) / 2 ^ F) : Fixed F) =
      ∑ i ∈ s, ofSteps (f i / 2 ^ F) + ofSteps (Residue.carryOf (2 ^ F) s f) := by
  rw [Residue.sum_ediv s f (by positivity), map_add, map_sum]

theorem narrow_eq_ofSteps (h : Scalable F) (acc : Int64) :
    (narrow acc : Fixed F) = ofSteps (acc.toInt / 2 ^ F) := by
  rw [← toInt_raw_inj, toInt_raw_narrow h, toInt_raw_ofSteps]

/-- Narrowing reads the low `F + 32` bits of the accumulator. -/
theorem narrow_eq_of_modEq (h : Scalable F) {acc : Int64} {z : Int}
    (low : acc.toInt ≡ z [ZMOD 2 ^ (F + 32)]) : (narrow acc : Fixed F) = ofSteps (z / 2 ^ F) := by
  rw [narrow_eq_ofSteps h]
  exact ofSteps_congr (Residue.ediv_modEq low)

theorem mul_eq_ofSteps (h : Scalable F) (x y : Fixed F) :
    x * y = ofSteps (x.raw.toInt * y.raw.toInt / 2 ^ F) := by
  rw [mul_eq, narrow_eq_ofSteps h, Mac.toInt_exact_mul]

end FixedPoint.Fixed
