import FixedPoint.Fixed.Mul
import FixedPoint.Proofs.Dot.Exact

namespace FixedPoint.Mac

open Fixed (mulWith dotWith dot)

variable {F : Nat} {M : Mac}

/-- No product and no dot product of the format tells the unit from the exact one. -/
def Interchangeable (M : Mac) (F : Nat) : Prop :=
  (∀ x y : Fixed F, mulWith M x y = x * y) ∧
    ∀ (a b : List (Fixed F)) (n : Nat), dotWith M a b n = dot a b n

theorem ExactBelow.mulWith_eq_mul (low : M.ExactBelow (F + 32)) (h : Scalable F) (x y : Fixed F) :
    mulWith M x y = x * y := by
  rw [Fixed.mulWith_eq, Fixed.narrow_eq_of_modEq h (low.mul _ _), Fixed.mul_eq_ofSteps h]

theorem ExactBelow.dotWith_eq_dot (low : M.ExactBelow (F + 32)) (h : Scalable F)
    (a b : List (Fixed F)) (n : Nat) : dotWith M a b n = dot a b n := by
  cases judged : Fixed.rejection? a.length b.length n with
  | some e => rw [dot, Fixed.dotWith_of_rejection judged, Fixed.dotWith_of_rejection judged]
  | none =>
    obtain ⟨pos, ha, hb⟩ := Fixed.rejection?_eq_none_iff.1 judged
    rw [Fixed.dotWith_eq_ofSteps h low judged, Fixed.dot_eq_ofSteps h pos ha hb]

theorem ExactBelow.interchangeable (low : M.ExactBelow (F + 32)) (h : Scalable F) :
    M.Interchangeable F :=
  ⟨low.mulWith_eq_mul h, low.dotWith_eq_dot h⟩

/-- **`F + 32` bits are enough.** A unit that is exact in so many low bits can stand in for the
exact one. So can every faithful unit, and one whose register is no wider than that. -/
theorem interchangeable_of_exactBelow (h : Scalable F) :
    (∀ M : Mac, M.ExactBelow (F + 32) → M.Interchangeable F) ∧
      (∀ M : Mac, M.Faithful → M.Interchangeable F) ∧ (lowBits (F + 32)).Interchangeable F := by
  have wide : F + 32 ≤ 64 := by omega
  refine ⟨fun M low => low.interchangeable h, ?_, (lowBits_exactBelow wide).interchangeable h⟩
  intro M faithful
  exact (faithful.exactBelow wide).interchangeable h

/-- A register of 47 bits loses the largest product, and a format with 15 fraction bits does not
notice. -/
theorem interchangeable_of_exactBelow_lossy :
    (lowBits 47).ExactBelow 47 ∧
      (lowBits 47).mul Int32.minValue Int32.minValue ≠
        exact.mul Int32.minValue Int32.minValue ∧
      (lowBits 47).Interchangeable 15 := by
  have low : (lowBits 47).ExactBelow 47 := lowBits_exactBelow (by decide)
  refine ⟨low, by decide, ?_⟩
  exact (interchangeable_of_exactBelow (F := 15) (by decide)).1 (lowBits 47) low

end FixedPoint.Mac
