import FixedPoint.Proofs.Dot.Mean

namespace FixedPoint.Fixed

variable {F : Nat} {a b c : List (Fixed F)} {n : Nat}

/-- The whole sum of products, rounded down, is a word. -/
def Representable (a b : List (Fixed F)) (n : Nat) : Prop :=
  -2 ^ (31 + F) ≤ exactDot a b n ∧ exactDot a b n < 2 ^ (31 + F)

instance (a b : List (Fixed F)) (n : Nat) : Decidable (Representable a b n) :=
  inferInstanceAs (Decidable (_ ∧ _))

theorem Representable.toInt_raw (h : Representable a b n) :
    (ofSteps (exactDot a b n / 2 ^ F) : Fixed F).raw.toInt = exactDot a b n / 2 ^ F :=
  toInt_raw_ofSteps_ediv_eq_iff.2 h

/-- Rounding down and taking the word keep the order of two sums that are in range. -/
theorem Representable.ofSteps_le {a' b' : List (Fixed F)} {n' : Nat} (h : Representable a b n)
    (h' : Representable a' b' n') (le : exactDot a b n ≤ exactDot a' b' n') :
    (ofSteps (exactDot a b n / 2 ^ F) : Fixed F) ≤ ofSteps (exactDot a' b' n' / 2 ^ F) := by
  rw [le_iff, h.toInt_raw, h'.toInt_raw]
  exact Int.ediv_le_ediv (by positivity) le

theorem exactDot_le_of_nonneg (weights : ∀ i < n, 0 ≤ a.getD i 0)
    (le : ∀ i < n, b.getD i 0 ≤ c.getD i 0) : exactDot a b n ≤ exactDot a c n := by
  apply sum_mul_le_sum_mul
  · intro i hi
    exact le_iff.1 (weights i hi)
  · intro i hi
    exact le_iff.1 (le i hi)

theorem exactDot_le_of_nonpos (weights : ∀ i < n, a.getD i 0 ≤ 0)
    (le : ∀ i < n, b.getD i 0 ≤ c.getD i 0) : exactDot a c n ≤ exactDot a b n := by
  apply Finset.sum_le_sum
  intro i hi
  have inside := Finset.mem_range.1 hi
  exact mul_le_mul_of_nonpos_left (le_iff.1 (le i inside)) (le_iff.1 (weights i inside))

/-- **Larger values, larger sums.** Weights of one sign pass the order of the values on to the dot
products, in reverse if they are negative, provided that both totals are in range. -/
theorem dot_le_dot (h : Scalable F) (pos : 1 ≤ n) (ha : n ≤ a.length) (hb : n ≤ b.length)
    (hc : n ≤ c.length) (le : ∀ i < n, b.getD i 0 ≤ c.getD i 0)
    (lower : Representable a b n) (upper : Representable a c n) :
    ∃ x y, dot a b n = .ok x ∧ dot a c n = .ok y ∧
      ((∀ i < n, 0 ≤ a.getD i 0) → x ≤ y) ∧ ((∀ i < n, a.getD i 0 ≤ 0) → y ≤ x) := by
  refine ⟨_, _, dot_eq_ofSteps h pos ha hb, dot_eq_ofSteps h pos ha hc, ?_, ?_⟩
  · intro weights
    exact lower.ofSteps_le upper (exactDot_le_of_nonneg weights le)
  · intro weights
    exact upper.ofSteps_le lower (exactDot_le_of_nonpos weights le)

/-- The accumulators leave 64 bits on the way, under both signs of the weights. Twice the largest
value is not in range: it wraps and falls below twice zero. -/
theorem dot_le_dot_uncontained :
    let a : List (Fixed 15) := [maxValue, maxValue, maxValue, maxValue, maxValue, maxValue]
    let b : List (Fixed 15) := [minValue, maxValue, maxValue, maxValue, minValue, minValue]
    let c : List (Fixed 15) := [minValue, maxValue, maxValue, maxValue, minValue, -maxValue]
    (¬ Contained a b 6 ∧ ¬ Contained a c 6 ∧
      ∃ x y, dot a b 6 = .ok x ∧ dot a c 6 = .ok y ∧ x ≤ y) ∧
    (¬ Contained (a.map Neg.neg) b 6 ∧ ¬ Contained (a.map Neg.neg) c 6 ∧
      ∃ x y, dot (a.map Neg.neg) b 6 = .ok x ∧ dot (a.map Neg.neg) c 6 = .ok y ∧ y ≤ x) ∧
    (¬ Representable [(two : Fixed 15)] [maxValue] 1 ∧
      dot [(two : Fixed 15)] [zero] 1 = .ok zero ∧
      dot [(two : Fixed 15)] [maxValue] 1 = .ok ⟨-2⟩) := by
  intro a b c
  obtain ⟨x, y, hx, hy, up, -⟩ := dot_le_dot (a := a) (b := b) (c := c) (n := 6) (by decide)
    (by decide) (by decide) (by decide) (by decide) (by decide) (by decide) (by decide)
  obtain ⟨x', y', hx', hy', -, down⟩ := dot_le_dot (a := a.map Neg.neg) (b := b) (c := c) (n := 6)
    (by decide) (by decide) (by decide) (by decide) (by decide) (by decide) (by decide) (by decide)
  exact ⟨⟨by decide, by decide, x, y, hx, hy, up (by decide)⟩,
    ⟨by decide, by decide, x', y', hx', hy', down (by decide)⟩, by decide, by decide, by decide⟩

end FixedPoint.Fixed
