import FixedPoint.Proofs.Mul.Range

namespace FixedPoint.Fixed

variable {F : Nat} {a b c : Fixed F}

/-- By how many steps the first grouping exceeds the second before either of them wraps. -/
def groupingGap (a b c : Fixed F) : Int :=
  (a * b).raw.toInt * c.raw.toInt / 2 ^ F - a.raw.toInt * (b * c).raw.toInt / 2 ^ F

theorem abs_groupingGap_lt (h : Scalable F) (left : ProductFits a b) (right : ProductFits b c) :
    |groupingGap a b c| * 2 ^ F < |a.raw.toInt| + |c.raw.toInt| + 2 ^ F := by
  have pos : (0 : Int) < 2 ^ F := by positivity
  have floors := Residue.abs_ediv_sub_ediv_lt pos ((a * b).raw.toInt * c.raw.toInt)
    (a.raw.toInt * (b * c).raw.toInt)
  have regrouped := Residue.abs_regroup_le pos a.raw.toInt b.raw.toInt c.raw.toInt
  rw [← left.toInt_raw_mul h, ← right.toInt_raw_mul h] at regrouped
  rw [groupingGap]
  omega

theorem abs_groupingGap_le_two (h : Scalable F) (left : ProductFits a b) (right : ProductFits b c)
    (ha : |a.raw.toInt| ≤ (one : Fixed F).raw.toInt)
    (hc : |c.raw.toInt| ≤ (one : Fixed F).raw.toInt) : |groupingGap a b c| ≤ 2 := by
  rw [toInt_raw_one h] at ha hc
  have bound : |groupingGap a b c| * 2 ^ F < 3 * 2 ^ F :=
    calc |groupingGap a b c| * 2 ^ F
        < |a.raw.toInt| + |c.raw.toInt| + 2 ^ F := abs_groupingGap_lt h left right
      _ ≤ 2 ^ F + 2 ^ F + 2 ^ F := by omega
      _ = 3 * 2 ^ F := by ring
  exact Int.lt_add_one_iff.1 (lt_of_mul_lt_mul_right bound (by positivity))

/-- The groupings differ by the gap, whatever wraps at the end. -/
theorem mul_mul_eq_add_groupingGap (h : Scalable F) (a b c : Fixed F) :
    a * b * c = a * (b * c) + ofSteps (groupingGap a b c) := by
  have left := mul_eq_ofSteps h (a * b) c
  have right := mul_eq_ofSteps h a (b * c)
  rw [groupingGap, map_sub, ← left, ← right, add_sub_cancel]

theorem toInt_raw_mul_mul_modEq (h : Scalable F) (a b c : Fixed F) :
    (a * b * c).raw.toInt ≡ (a * (b * c)).raw.toInt + groupingGap a b c [ZMOD 2 ^ 32] := by
  rw [← ofSteps_eq_iff, map_add, ofSteps_toInt_raw]
  exact (mul_mul_eq_add_groupingGap h a b c).symm

/-- **Almost associative.** If both inner products fit, there are fewer steps between the two
groupings of a product than the magnitudes of the outer factors and one together: at most two for
factors within one. If the outer products wrap, so does the difference, and otherwise it is
exact. -/
theorem mul_assoc_up_to_gap (h : Scalable F) (left : ProductFits a b) (right : ProductFits b c) :
    ∃ D : Int, |D| * 2 ^ F < |a.raw.toInt| + |c.raw.toInt| + 2 ^ F ∧
      (a * b * c).raw.toInt ≡ (a * (b * c)).raw.toInt + D [ZMOD 2 ^ 32] ∧
      (ProductFits (a * b) c → ProductFits a (b * c) →
        (a * b * c).raw.toInt = (a * (b * c)).raw.toInt + D) ∧
      (|a.raw.toInt| ≤ (one : Fixed F).raw.toInt → |c.raw.toInt| ≤ (one : Fixed F).raw.toInt →
        |D| ≤ 2) := by
  refine ⟨groupingGap a b c, abs_groupingGap_lt h left right, toInt_raw_mul_mul_modEq h a b c,
    ?_, abs_groupingGap_le_two h left right⟩
  intro outer outer'
  rw [outer.toInt_raw_mul h, outer'.toInt_raw_mul h, groupingGap]
  omega

/-- Two steps between gains that are just below one, and outer products that both wrap. -/
theorem mul_assoc_up_to_gap_attained :
    let a : Fixed 15 := ⟨32721⟩
    let b : Fixed 15 := ⟨-74965⟩
    let c : Fixed 15 := ⟨-32726⟩
    let x : Fixed 15 := ⟨-918359911⟩
    let y : Fixed 15 := ⟨9193⟩
    let z : Fixed 15 := ⟨-515148174⟩
    (∃ D : Int, |D| ≤ 2 ∧ (a * b * c).raw.toInt = (a * (b * c)).raw.toInt + D ∧ D = 2) ∧
    (¬ ProductFits (x * y) z ∧ ¬ ProductFits x (y * z) ∧
      ∃ D : Int, |D| ≤ 43748 ∧
        (x * y * z).raw.toInt ≡ (x * (y * z)).raw.toInt + D [ZMOD 2 ^ 32]) := by
  intro a b c x y z
  obtain ⟨D, -, -, exactly, small⟩ := mul_assoc_up_to_gap (F := 15) (a := a) (b := b) (c := c)
    (by decide) (by decide) (by decide)
  obtain ⟨E, bound, wrapped, -⟩ := mul_assoc_up_to_gap (F := 15) (a := x) (b := y) (c := z)
    (by decide) (by decide) (by decide)
  have difference := exactly (by decide) (by decide)
  have values : (a * b * c).raw.toInt = (a * (b * c)).raw.toInt + 2 := by decide
  have magnitudes : |x.raw.toInt| + |z.raw.toInt| + 2 ^ 15 = 1433540853 := by decide
  refine ⟨⟨D, small (by decide) (by decide), difference, by omega⟩, by decide, by decide, E, ?_,
    wrapped⟩
  rw [magnitudes] at bound
  omega

end FixedPoint.Fixed
