import FixedPoint.Proofs.Dot.Exact
import Mathlib.Data.List.GetD

namespace FixedPoint.Fixed

variable {F : Nat} {a b c : List (Fixed F)} {n : Nat}

/-- How often the sum of two values leaves the range: once upward, once downward or not at all. -/
def wraps (x y : Fixed F) : Int :=
  if 2 ^ 31 ≤ x.raw.toInt + y.raw.toInt then 1
  else if x.raw.toInt + y.raw.toInt < -2 ^ 31 then -1
  else 0

/-- The sums of the values at equal positions. -/
def addEach (b c : List (Fixed F)) : List (Fixed F) := List.zipWith (· + ·) b c

/-- How often the sum at a position leaves the range. -/
def wrapsAt (b c : List (Fixed F)) (i : Nat) : Int := wraps (b.getD i 0) (c.getD i 0)

theorem wraps_cases (x y : Fixed F) : wraps x y = -1 ∨ wraps x y = 0 ∨ wraps x y = 1 := by
  unfold wraps
  split
  · exact .inr (.inr rfl)
  · split
    · exact .inl rfl
    · exact .inr (.inl rfl)

theorem toInt_raw_add_wraps (x y : Fixed F) :
    x.raw.toInt + y.raw.toInt = (x + y).raw.toInt + wraps x y * 2 ^ 32 := by
  have hx := x.raw.toInt_lt
  have hx' := x.raw.le_toInt
  have hy := y.raw.toInt_lt
  have hy' := y.raw.le_toInt
  have rest : -2 ^ 31 ≤ x.raw.toInt + y.raw.toInt - wraps x y * 2 ^ 32 ∧
      x.raw.toInt + y.raw.toInt - wraps x y * 2 ^ 32 < 2 ^ 31 := by
    unfold wraps
    split
    · omega
    · split <;> omega
  have word := Residue.bmod_eq_self_iff.2 rest
  have same := Int.sub_mul_bmod_self_right (x.raw.toInt + y.raw.toInt) (wraps x y) (2 ^ 32)
  rw [raw_add, Int32.toInt_add, ← same]
  exact Int.sub_eq_iff_eq_add.1 word.symm

theorem wordAt_addEach {i : Nat} (hb : i < b.length) (hc : i < c.length) :
    wordAt b i + wordAt c i = wordAt (addEach b c) i + wrapsAt b c i * 2 ^ 32 := by
  have sum : (addEach b c).getD i 0 = b.getD i 0 + c.getD i 0 := by
    rw [List.getD_eq_getElem _ _ hb, List.getD_eq_getElem _ _ hc, addEach,
      List.getD_eq_getElem _ _ (by rw [List.length_zipWith]; omega), List.getElem_zipWith]
  rw [wordAt, wordAt, wordAt, sum]
  exact toInt_raw_add_wraps _ _

theorem exactDot_addEach (hb : n ≤ b.length) (hc : n ≤ c.length) :
    exactDot a (addEach b c) n =
      exactDot a b n + exactDot a c n -
        2 ^ 32 * ∑ i ∈ Finset.range n, wrapsAt b c i * wordAt a i := by
  rw [exactDot, exactDot, exactDot, Finset.mul_sum, ← Finset.sum_add_distrib,
    ← Finset.sum_sub_distrib]
  apply Finset.sum_congr rfl
  intro i hi
  have inside := Finset.mem_range.1 hi
  have sum := wordAt_addEach (b := b) (c := c) (i := i) (by omega) (by omega)
  have word : wordAt (addEach b c) i = wordAt b i + wordAt c i - wrapsAt b c i * 2 ^ 32 := by omega
  rw [word]
  ring

theorem exactDot_addEach_ediv (h : Scalable F) (hb : n ≤ b.length) (hc : n ≤ c.length) :
    exactDot a (addEach b c) n / 2 ^ F =
      exactDot a b n / 2 ^ F + exactDot a c n / 2 ^ F +
        Residue.carry (2 ^ F) (exactDot a b n) (exactDot a c n) -
        2 ^ (32 - F) * ∑ i ∈ Finset.range n, wrapsAt b c i * wordAt a i := by
  rw [exactDot_addEach hb hc, Residue.sub_mul_ediv _ _ (by omega), Residue.add_ediv (by positivity)]

/-- **Superposition with its exact corrections.** Without wrapped samples the responses add up to
one step. -/
theorem dot_addEach (h : Scalable F) (pos : 1 ≤ n) (ha : n ≤ a.length) (hb : n ≤ b.length)
    (hc : n ≤ c.length) :
    (∀ i < n, (wrapsAt b c i = -1 ∨ wrapsAt b c i = 0 ∨ wrapsAt b c i = 1) ∧
      wordAt b i + wordAt c i = wordAt (addEach b c) i + wrapsAt b c i * 2 ^ 32) ∧
    ∃ x y z, dot a b n = .ok x ∧ dot a c n = .ok y ∧ dot a (addEach b c) n = .ok z ∧
      z.raw.toInt ≡ x.raw.toInt + y.raw.toInt +
        Residue.carry (2 ^ F) (exactDot a b n) (exactDot a c n) -
        2 ^ (32 - F) * ∑ i ∈ Finset.range n, wrapsAt b c i * wordAt a i [ZMOD 2 ^ 32] ∧
      ((∀ i < n, wrapsAt b c i = 0) → z = x + y ∨ z = x + y + epsilon) := by
  have hd : n ≤ (addEach b c).length := by
    rw [addEach, List.length_zipWith]
    omega
  have floors := exactDot_addEach_ediv (a := a) h hb hc
  constructor
  · intro i hi
    exact ⟨wraps_cases _ _, wordAt_addEach (by omega) (by omega)⟩
  · refine ⟨_, _, _, dot_eq_ofSteps h pos ha hb, dot_eq_ofSteps h pos ha hc,
      dot_eq_ofSteps h pos ha hd, ?_, ?_⟩
    · refine (toInt_raw_ofSteps_modEq _).trans ?_
      rw [floors]
      have hx := toInt_raw_ofSteps_modEq (F := F) (exactDot a b n / 2 ^ F)
      have hy := toInt_raw_ofSteps_modEq (F := F) (exactDot a c n / 2 ^ F)
      exact (((hx.add hy).add_right _).sub_right _).symm
    · intro unwrapped
      have none : ∑ i ∈ Finset.range n, wrapsAt b c i * wordAt a i = 0 := by
        apply Finset.sum_eq_zero
        intro i hi
        rw [unwrapped i (Finset.mem_range.1 hi), zero_mul]
      rw [floors, none, mul_zero, sub_zero, map_add, map_add, Residue.carry]
      split
      · exact .inr rfl
      · exact .inl (add_zero _)

/-- The first sample wraps upward under a weight of three steps, and the dropped fractions carry. -/
theorem dot_addEach_wrapping :
    let a : List (Fixed 15) := [⟨3⟩, ⟨2 ^ 14⟩]
    let b : List (Fixed 15) := [maxValue, epsilon]
    let c : List (Fixed 15) := [epsilon, epsilon]
    ∃ x y z, dot a b 2 = .ok x ∧ dot a c 2 = .ok y ∧ dot a (addEach b c) 2 = .ok z ∧
      z.raw.toInt ≡ x.raw.toInt + y.raw.toInt + 1 - 2 ^ 17 * 3 [ZMOD 2 ^ 32] := by
  intro a b c
  have carry : Residue.carry (2 ^ 15) (exactDot a b 2) (exactDot a c 2) = 1 := by decide
  have wrapped : ∑ i ∈ Finset.range 2, wrapsAt b c i * wordAt a i = 3 := by decide
  obtain ⟨-, x, y, z, hx, hy, hz, law, -⟩ := dot_addEach (a := a) (b := b) (c := c) (n := 2)
    (by decide) (by decide) (by decide) (by decide) (by decide)
  rw [carry, wrapped] at law
  exact ⟨x, y, z, hx, hy, hz, law⟩

end FixedPoint.Fixed
