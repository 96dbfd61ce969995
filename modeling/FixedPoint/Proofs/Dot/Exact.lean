import FixedPoint.Fixed.Dot
import FixedPoint.Proofs.Mac.Precision
import FixedPoint.Proofs.Steps

/-!
# Dot products in integers

A dot product is the floor of one integer, the sum of all products of words, wrapped once. The
accumulator may wrap any number of times on the way: it holds at least `F + 32` bits, and no other
bit of the sum is read.
-/

namespace FixedPoint.Fixed

variable {F : Nat} {a b : List (Fixed F)} {n : Nat}

/-- The word at a position as an integer, zero behind the end of the list. -/
def wordAt (a : List (Fixed F)) (i : Nat) : Int := (a.getD i 0).raw.toInt

/-- The sum of the products of the first `n` words, without bound. -/
def exactDot (a b : List (Fixed F)) (n : Nat) : Int :=
  ∑ i ∈ Finset.range n, wordAt a i * wordAt b i

theorem wordAt_of_getElem? {x : Fixed F} {i : Nat} (h : a[i]? = some x) :
    wordAt a i = x.raw.toInt := by
  rw [wordAt, List.getD_eq_getElem?_getD, h, Option.getD_some]

theorem exactDot_of_eq_nil (h : a = [] ∨ b = []) : exactDot a b n = 0 := by
  apply Finset.sum_eq_zero
  intro i _
  rcases h with rfl | rfl
  · exact Int.zero_mul _
  · exact Int.mul_zero _

theorem exactDot_cons (x y : Fixed F) (a b : List (Fixed F)) (n : Nat) :
    exactDot (x :: a) (y :: b) (n + 1) = x.raw.toInt * y.raw.toInt + exactDot a b n := by
  rw [exactDot, Finset.sum_range_succ', add_comm]
  rfl

theorem exactDot_comm (a b : List (Fixed F)) (n : Nat) : exactDot a b n = exactDot b a n :=
  Finset.sum_congr rfl fun _ _ => mul_comm _ _

/-- The integer that the accumulator stands for is the sum over positions. -/
theorem exactSum_factors (a b : List (Fixed F)) (n : Nat) :
    Mac.exactSum (factors a b n) = exactDot a b n := by
  induction n generalizing a b with
  | zero => rfl
  | succ n ih =>
    cases a with
    | nil => exact (exactDot_of_eq_nil (.inl rfl)).symm
    | cons x a =>
      cases b with
      | nil => exact (exactDot_of_eq_nil (.inr rfl)).symm
      | cons y b => rw [exactDot_cons, ← ih a b]; rfl

theorem dotWith_eq_ofSteps (h : Scalable F) {M : Mac} (low : M.ExactBelow (F + 32))
    (accepted : rejection? a.length b.length n = none) :
    dotWith M a b n = .ok (ofSteps (exactDot a b n / 2 ^ F)) := by
  rw [dotWith_of_accepted accepted, narrow_eq_of_modEq h (low.sum_modEq _), exactSum_factors]

theorem dot_eq_ofSteps (h : Scalable F) (pos : 1 ≤ n) (ha : n ≤ a.length) (hb : n ≤ b.length) :
    dot a b n = .ok (ofSteps (exactDot a b n / 2 ^ F)) :=
  dotWith_eq_ofSteps h (Mac.exact_faithful.exactBelow (by omega))
    (rejection?_eq_none_iff.2 ⟨pos, ha, hb⟩)

/-- **One floor, wrapped once.** The word of a dot product is the only one in the residue class of
the floor of the exact sum, and it is that floor exactly if the sum has at most `31 + F` bits beside
its sign. -/
theorem dot_eq_wrapped_floor (h : Scalable F) (pos : 1 ≤ n) (ha : n ≤ a.length)
    (hb : n ≤ b.length) :
    ∃ r, dot a b n = .ok r ∧
      (∀ w : Int32, w.toInt ≡ exactDot a b n / 2 ^ F [ZMOD 2 ^ 32] ↔ w = r.raw) ∧
      (r.raw.toInt = exactDot a b n / 2 ^ F ↔
        -2 ^ (31 + F) ≤ exactDot a b n ∧ exactDot a b n < 2 ^ (31 + F)) := by
  refine ⟨_, dot_eq_ofSteps h pos ha hb, fun w => ?_, ?_⟩
  · have named := ofSteps_eq_iff (x := (⟨w⟩ : Fixed F)) (z := exactDot a b n / 2 ^ F)
    rw [← named, Fixed.ext_iff]
    exact eq_comm
  · rw [toInt_raw_ofSteps_eq_iff, Residue.ediv_bounds_iff]

/-- Here the accumulator leaves 64 bits, and the floor of the sum is no word. -/
theorem dot_eq_wrapped_floor_of_overflow :
    let a : List (Fixed 15) := [minValue, minValue, minValue, epsilon]
    let b : List (Fixed 15) := [minValue, minValue, minValue, one]
    exactDot a b 4 = 3 * 2 ^ 62 + 2 ^ 15 ∧
      ∃ r, dot a b 4 = .ok r ∧ r = epsilon ∧ r.raw.toInt ≠ exactDot a b 4 / 2 ^ 15 := by
  intro a b
  have total : exactDot a b 4 = 3 * 2 ^ 62 + 2 ^ 15 := by decide
  obtain ⟨r, result, unique, fits⟩ :=
    dot_eq_wrapped_floor (a := a) (b := b) (n := 4) (by decide) (by decide) (by decide) (by decide)
  rw [total] at unique fits ⊢
  refine ⟨rfl, r, result, Fixed.ext ((unique 1).1 (by decide)).symm, ?_⟩
  intro h
  exact absurd (fits.1 h).2 (by decide)

end FixedPoint.Fixed
