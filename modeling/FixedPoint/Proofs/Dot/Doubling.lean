import FixedPoint.Fixed.Mul
import FixedPoint.Proofs.Dot.Affine
import FixedPoint.Proofs.Dot.Formats
import Mathlib.Algebra.BigOperators.ModEq

namespace FixedPoint.Fixed

variable {F G : Nat} {a b : List (Fixed F)} {n : Nat}

/-- Doubled products add up to the doubled sum. -/
theorem sum_doubling_modEq (a b : List (Fixed F)) (n : Nat) :
    ∑ i ∈ Finset.range n, termAt Mac.doubling.mul a b i ≡ 2 * exactDot a b n [ZMOD 2 ^ 64] := by
  rw [exactDot, Finset.mul_sum]
  apply Int.ModEq.sum
  intro i _
  exact Mac.doubling_mul_modEq _ _

/-- An accumulator that holds the double of a number is narrowed to the number with one bit less
dropped. -/
theorem narrow_of_double (h : Scalable (G + 1)) {acc : Int64} {z : Int}
    (double : acc.toInt ≡ 2 * z [ZMOD 2 ^ 64]) :
    (narrow acc : Fixed (G + 1)) = ofSteps (z / 2 ^ G) := by
  have low := double.of_dvd (pow_dvd_pow 2 (show G + 1 + 32 ≤ 64 by omega))
  rw [narrow_eq_of_modEq h low, Residue.two_mul_ediv]

theorem dotWith_doubling (h : Scalable (G + 1)) {a b : List (Fixed (G + 1))}
    (accepted : rejection? a.length b.length n = none) :
    dotWith .doubling a b n = .ok (ofSteps (exactDot a b n / 2 ^ G)) := by
  obtain ⟨pos, -, -⟩ := rejection?_eq_none_iff.1 accepted
  obtain ⟨W, result, closed⟩ := dotWith_of_affine Mac.doubling_affine accepted
  rw [weightedDot_one pos] at closed
  rw [result, narrow_of_double h (closed.trans (sum_doubling_modEq a b n))]

theorem mulWith_doubling (h : Scalable (G + 1)) (x y : Fixed (G + 1)) :
    mulWith .doubling x y = ofSteps (x.raw.toInt * y.raw.toInt / 2 ^ G) := by
  rw [mulWith_eq, narrow_of_double h (Mac.doubling_mul_modEq x.raw y.raw)]

/-- **Doubling saves a fraction bit.** The doubling unit gives the same words and the same errors as
the exact one does for the same words in the format with one fraction bit less. -/
theorem doubling_eq_coarser (fine : Scalable (G + 1)) (coarse : Scalable G) :
    (∀ (a b : List (Fixed (G + 1))) (a' b' : List (Fixed G)) (n : Nat),
      a.map raw = a'.map raw → b.map raw = b'.map raw →
      (dotWith .doubling a b n).map raw = (dot a' b' n).map raw) ∧
    ∀ (x y : Fixed (G + 1)) (x' y' : Fixed G), x.raw = x'.raw → y.raw = y'.raw →
      (mulWith .doubling x y).raw = (x' * y').raw := by
  constructor
  · intro a b a' b' n sameA sameB
    have lengthA := length_eq_of_map_raw sameA
    have lengthB := length_eq_of_map_raw sameB
    cases judged : rejection? a.length b.length n with
    | some e =>
      rw [dotWith_of_rejection judged, dot, dotWith_of_rejection (lengthA ▸ lengthB ▸ judged)]
      rfl
    | none =>
      obtain ⟨pos, ha, hb⟩ := rejection?_eq_none_iff.1 judged
      rw [dotWith_doubling fine judged, dot_eq_ofSteps coarse pos (lengthA ▸ ha) (lengthB ▸ hb),
        exactDot_congr sameA sameB]
      rfl
  · intro x y x' y' sameX sameY
    rw [mulWith_doubling fine, mul_eq_ofSteps coarse, sameX, sameY]
    rfl

/-- The largest product loses its highest bit and turns negative, and the sum turns positive
again. -/
theorem doubling_eq_coarser_wrapping :
    let a : List (Fixed 29) := [minValue, minValue]
    let b : List (Fixed 29) := [minValue, maxValue]
    let a' : List (Fixed 28) := [minValue, minValue]
    let b' : List (Fixed 28) := [minValue, maxValue]
    (dotLogged .doubling a b 2).2.map (·.result.toInt) = [-2 ^ 63, 2 ^ 32] ∧
      (dotLogged .exact a' b' 2).2.map (·.result.toInt) = [2 ^ 62, 2 ^ 31] ∧
      (dotWith .doubling a b 2).map raw = (dot a' b' 2).map raw ∧
      (mulWith .doubling minValue minValue : Fixed 29).raw =
        (minValue * minValue : Fixed 28).raw := by
  intro a b a' b'
  obtain ⟨dots, products⟩ := doubling_eq_coarser (G := 28) (by decide) (by decide)
  exact ⟨by decide, by decide, dots a b a' b' 2 rfl rfl, products _ _ _ _ rfl rfl⟩

end FixedPoint.Fixed
