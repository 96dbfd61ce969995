import FixedPoint.Proofs.Dot.Exact
import Mathlib.Data.List.GetD

/-!
# Negated operands

A product with a negated operand is the negative of the product, up to two corrections. Rounding
down is not symmetric, so an inexact result is one step lower. And the least value has no negative:
it is its own, which is `2 ^ 32` steps too low, and narrowing leaves `2 ^ (32 - F)` of them for each
step of the other factor.
-/

namespace FixedPoint.Fixed

variable {F : Nat} {a b : List (Fixed F)} {n : Nat}

/-- The words of `b` whose partners in `a` have no negative, together. -/
def besideLeast (a b : List (Fixed F)) (n : Nat) : Int :=
  ∑ i ∈ Finset.range n with a.getD i 0 = minValue, wordAt b i

/-- The negative of `x` for an `x` that is `z / 2 ^ F` rounded down, one step lower if a fraction
was dropped. -/
def negFloor (z : Int) (x : Fixed F) : Fixed F := if 2 ^ F ∣ z then -x else -x - epsilon

theorem toInt_raw_neg (x : Fixed F) :
    (-x).raw.toInt = -x.raw.toInt - 2 ^ 32 * if x = minValue then 1 else 0 := by
  by_cases least : x = minValue
  · subst least
    rfl
  · have above := x.raw.le_toInt
    have below := x.raw.toInt_lt
    have other : x.raw.toInt ≠ -2 ^ 31 := by
      intro same
      exact least (toInt_raw_inj.1 same)
    rw [raw_neg, Int32.toInt_neg, if_neg least]
    simp only [mul_zero, sub_zero]
    exact Int.bmod_eq_of_le (by omega) (by omega)

theorem wordAt_map_neg (a : List (Fixed F)) (i : Nat) :
    wordAt (a.map Neg.neg) i = -wordAt a i - 2 ^ 32 * if a.getD i 0 = minValue then 1 else 0 := by
  have value := List.getD_map a (0 : Fixed F) Neg.neg (n := i)
  rw [neg_zero] at value
  rw [wordAt, value, toInt_raw_neg, wordAt]

theorem exactDot_map_neg (a b : List (Fixed F)) (n : Nat) :
    exactDot (a.map Neg.neg) b n = -exactDot a b n - 2 ^ 32 * besideLeast a b n := by
  rw [exactDot, exactDot, besideLeast, Finset.sum_filter, Finset.mul_sum, ← Finset.sum_neg_distrib,
    ← Finset.sum_sub_distrib]
  apply Finset.sum_congr rfl
  intro i _
  rw [wordAt_map_neg]
  split <;> ring

theorem besideLeast_eq_zero (h : ∀ i < n, a.getD i 0 ≠ minValue) : besideLeast a b n = 0 := by
  rw [besideLeast, Finset.filter_eq_empty_iff.2, Finset.sum_empty]
  intro i hi
  exact h i (Finset.mem_range.1 hi)

theorem exactDot_map_neg_of_ne (h : ∀ i < n, a.getD i 0 ≠ minValue) :
    exactDot (a.map Neg.neg) b n = -exactDot a b n := by
  rw [exactDot_map_neg, besideLeast_eq_zero h, mul_zero, sub_zero]

theorem ofSteps_neg_ediv (z : Int) :
    (ofSteps (-z / 2 ^ F) : Fixed F) = negFloor z (ofSteps (z / 2 ^ F)) := by
  rw [Residue.neg_ediv (by positivity), map_sub, map_neg, negFloor]
  split
  · rw [map_zero, sub_zero]
  · rw [ofSteps_one]

theorem neg_mul_eq_negFloor (h : Scalable F) {x : Fixed F} (other : x ≠ minValue) (y : Fixed F) :
    -x * y = negFloor (x.raw.toInt * y.raw.toInt) (x * y) := by
  rw [mul_eq_ofSteps h, mul_eq_ofSteps h, toInt_raw_neg, if_neg other, mul_zero, sub_zero, neg_mul,
    ofSteps_neg_ediv]

theorem mul_neg_eq_negFloor (h : Scalable F) (x : Fixed F) {y : Fixed F} (other : y ≠ minValue) :
    x * -y = negFloor (x.raw.toInt * y.raw.toInt) (x * y) := by
  rw [Fixed.mul_comm x, Fixed.mul_comm x, mul_comm x.raw.toInt]
  exact neg_mul_eq_negFloor h other x

/-- **The sign law with its exact corrections.** Where no least value is negated, a result with one
operand negated is the negative of the result, one step lower if it is inexact. Each least value
that is negated takes off `2 ^ (32 - F)` times the word beside it. -/
theorem dot_map_neg (h : Scalable F) (pos : 1 ≤ n) (ha : n ≤ a.length) (hb : n ≤ b.length) :
    (∃ x z, dot a b n = .ok x ∧ dot (a.map Neg.neg) b n = .ok z ∧
      z.raw.toInt ≡ -x.raw.toInt - (if 2 ^ F ∣ exactDot a b n then 0 else 1) -
        2 ^ (32 - F) * besideLeast a b n [ZMOD 2 ^ 32] ∧
      ((∀ i < n, a.getD i 0 ≠ minValue) → z = negFloor (exactDot a b n) x) ∧
      ((∀ i < n, b.getD i 0 ≠ minValue) →
        dot a (b.map Neg.neg) n = .ok (negFloor (exactDot a b n) x))) ∧
    ∀ x y : Fixed F,
      (x ≠ minValue → -x * y = negFloor (x.raw.toInt * y.raw.toInt) (x * y)) ∧
      (y ≠ minValue → x * -y = negFloor (x.raw.toInt * y.raw.toInt) (x * y)) := by
  have ha' : n ≤ (a.map Neg.neg).length := by rwa [List.length_map]
  have hb' : n ≤ (b.map Neg.neg).length := by rwa [List.length_map]
  constructor
  · refine ⟨_, _, dot_eq_ofSteps h pos ha hb, dot_eq_ofSteps h pos ha' hb, ?_, ?_, ?_⟩
    · refine (toInt_raw_ofSteps_modEq _).trans ?_
      rw [exactDot_map_neg, Residue.sub_mul_ediv _ _ (by omega), Residue.neg_ediv (by positivity)]
      exact (((toInt_raw_ofSteps_modEq _).neg.sub_right _).sub_right _).symm
    · intro none
      rw [exactDot_map_neg_of_ne none, ofSteps_neg_ediv]
    · intro none
      rw [dot_eq_ofSteps h pos ha hb', exactDot_comm a, exactDot_map_neg_of_ne none,
        exactDot_comm b, ofSteps_neg_ediv]
  · intro x y
    exact ⟨fun other => neg_mul_eq_negFloor h other y, fun other => mul_neg_eq_negFloor h x other⟩

/-- A least value is negated beside five steps, and the sum is inexact. With the operands exchanged
no least value is negated, and only the fraction shows. -/
theorem dot_map_neg_least :
    let a : List (Fixed 15) := [minValue, ⟨3⟩]
    let b : List (Fixed 15) := [⟨5⟩, ⟨-7⟩]
    (∃ x z, dot a b 2 = .ok x ∧ dot (a.map Neg.neg) b 2 = .ok z ∧
      z.raw.toInt ≡ -x.raw.toInt - 1 - 2 ^ 17 * 5 [ZMOD 2 ^ 32] ∧
      dot a (b.map Neg.neg) 2 = .ok (-x - epsilon)) ∧
    (-⟨3⟩ * ⟨5⟩ : Fixed 15) = -(⟨3⟩ * ⟨5⟩) - epsilon := by
  intro a b
  have inexact : ¬ 2 ^ 15 ∣ exactDot a b 2 := by decide
  have beside : besideLeast a b 2 = 5 := by decide
  obtain ⟨⟨x, z, hx, hz, law, -, right⟩, products⟩ := dot_map_neg (a := a) (b := b) (n := 2)
    (by decide) (by decide) (by decide) (by decide)
  rw [if_neg inexact, beside] at law
  have exchanged := right (by decide)
  rw [negFloor, if_neg inexact] at exchanged
  have product := (products ⟨3⟩ ⟨5⟩).1 (by decide)
  rw [negFloor, if_neg (by decide)] at product
  exact ⟨⟨x, z, hx, hz, law, exchanged⟩, product⟩

end FixedPoint.Fixed
