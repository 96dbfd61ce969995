import FixedPoint.Proofs.Steps

namespace FixedPoint.Fixed

variable {F : Nat}

theorem toInt_add_modEq (x y : Int64) : (x + y).toInt ≡ x.toInt + y.toInt [ZMOD 2 ^ 64] := by
  rw [Int64.toInt_add]
  exact Residue.bmod_modEq _ 64

theorem narrow_eq_narrow_iff (h : Scalable F) {x y : Int64} :
    (narrow x : Fixed F) = narrow y ↔ x.toInt / 2 ^ F ≡ y.toInt / 2 ^ F [ZMOD 2 ^ 32] := by
  rw [narrow_eq_ofSteps h x, ofSteps_eq_iff, narrow_eq_ofSteps h y]
  have counted := toInt_raw_ofSteps_modEq (F := F) (y.toInt / 2 ^ F)
  exact ⟨fun same => (counted.symm.trans same).symm, fun same => counted.trans same.symm⟩

theorem ofSteps_carry (m x y : Int) :
    (ofSteps (Residue.carry m x y) : Fixed F) = ⟨if m ≤ x % m + y % m then 1 else 0⟩ := by
  unfold Residue.carry
  split <;> rfl

theorem narrow_add (h : Scalable F) (x y : Int64) :
    (narrow (x + y) : Fixed F) =
      narrow x + narrow y + ofSteps (Residue.carry (2 ^ F) x.toInt y.toInt) := by
  have low : (x + y).toInt ≡ x.toInt + y.toInt [ZMOD 2 ^ (F + 32)] :=
    (toInt_add_modEq x y).of_dvd (pow_dvd_pow 2 (by omega))
  rw [narrow_eq_of_modEq h low, Residue.add_ediv (by positivity), map_add, map_add,
    narrow_eq_ofSteps h, narrow_eq_ofSteps h]

/-- **Narrowing adds up to a carry.** The carry is one step exactly if the fractions that both
accumulators drop make a step together, and this is all that narrowing does to a sum. -/
theorem narrow_adds_up_to_carry (h : Scalable F) (x y : Int64) :
    (narrow (x + y) : Fixed F) =
      narrow x + narrow y + ⟨if 2 ^ F ≤ x.toInt % 2 ^ F + y.toInt % 2 ^ F then 1 else 0⟩ ∧
    ((narrow x : Fixed F) = narrow y ↔
      x.toInt / 2 ^ F ≡ y.toInt / 2 ^ F [ZMOD 2 ^ 32]) := by
  constructor
  · rw [narrow_add h, ofSteps_carry]
  · exact narrow_eq_narrow_iff h

/-- The sum leaves the range of the accumulator and its fractions carry. The least accumulator, to
which it wraps, narrows as zero does. -/
theorem narrow_adds_up_to_carry_wrapping :
    (Int64.maxValue + 1 : Int64) = Int64.minValue ∧
      (narrow Int64.minValue : Fixed 15) =
        narrow Int64.maxValue + narrow 1 + (epsilon : Fixed 15) ∧
      (narrow Int64.minValue : Fixed 15) = narrow 0 := by
  obtain ⟨sum, -⟩ := narrow_adds_up_to_carry (F := 15) (by decide) Int64.maxValue 1
  obtain ⟨-, same⟩ := narrow_adds_up_to_carry (F := 15) (by decide) Int64.minValue 0
  have wrapped : Int64.maxValue + 1 = Int64.minValue := by decide
  rw [if_pos (by decide), wrapped] at sum
  exact ⟨wrapped, sum, same.2 (by decide)⟩

end FixedPoint.Fixed
