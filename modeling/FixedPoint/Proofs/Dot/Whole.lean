import FixedPoint.Proofs.Dot.Exact
import FixedPoint.Proofs.Whole
import Mathlib.Data.List.GetD

namespace FixedPoint.Fixed

variable {F : Nat} {n : Nat}

theorem wordAt_map_ofInt (h : Storable F) (p : List Int32) (i : Nat) :
    wordAt (p.map ofInt : List (Fixed F)) i =
      2 ^ F * (ofInt (p.getD i 0) : Fixed F).floor.toInt := by
  have zero : (0 : Fixed F) = ofInt 0 := by
    rw [ofInt_eq_ofWhole h, Int32.toInt_zero, map_zero]
  rw [wordAt, zero, List.getD_map, toInt_raw_ofInt_eq_mul_floor h]

/-- All the factors are whole, so their sum of products has no fraction to drop. -/
theorem exactDot_map_ofInt_ediv (h : Storable F) (p q : List Int32) (n : Nat) :
    exactDot (p.map ofInt : List (Fixed F)) (q.map ofInt) n / 2 ^ F =
      2 ^ F * ∑ i ∈ Finset.range n, (ofInt (p.getD i 0) : Fixed F).floor.toInt *
        (ofInt (q.getD i 0) : Fixed F).floor.toInt := by
  have scaled : exactDot (p.map ofInt : List (Fixed F)) (q.map ofInt) n =
      2 ^ F * (2 ^ F * ∑ i ∈ Finset.range n, (ofInt (p.getD i 0) : Fixed F).floor.toInt *
        (ofInt (q.getD i 0) : Fixed F).floor.toInt) := by
    rw [exactDot, Finset.mul_sum, Finset.mul_sum]
    apply Finset.sum_congr rfl
    intro i _
    rw [wordAt_map_ofInt h, wordAt_map_ofInt h]
    ring
  rw [scaled, Int.mul_ediv_cancel_left _ (by positivity)]

theorem dot_map_ofInt (h : Scalable F) (p q : List Int32) (pos : 1 ≤ n) (hp : n ≤ p.length)
    (hq : n ≤ q.length) :
    dot (p.map ofInt : List (Fixed F)) (q.map ofInt) n =
      .ok (ofInt (Int32.ofInt
        (∑ i ∈ Finset.range n, (p.getD i 0).toInt * (q.getD i 0).toInt))) := by
  have storable : Storable F := by omega
  rw [dot_eq_ofSteps h pos (by simpa using hp) (by simpa using hq),
    exactDot_map_ofInt_ediv storable, ← ofWhole_eq_ofSteps, ofInt_ofInt storable, map_sum, map_sum]
  congr 1
  apply Finset.sum_congr rfl
  intro i _
  exact ofWhole_floor_mul_floor storable _ _

/-- **Whole numbers calculate like integers.** This holds for all integers, also for those with more
bits than there is room for. -/
theorem ofInt_homomorphism (h : Scalable F) :
    (∀ i j : Int32, (ofInt i + ofInt j : Fixed F) = ofInt (i + j)) ∧
    (∀ i j : Int32, (ofInt i - ofInt j : Fixed F) = ofInt (i - j)) ∧
    (∀ i : Int32, (-ofInt i : Fixed F) = ofInt (-i)) ∧
    (∀ i j : Int32, (ofInt i * ofInt j : Fixed F) = ofInt (i * j)) ∧
    ∀ (p q : List Int32) (n : Nat), 1 ≤ n → n ≤ p.length → n ≤ q.length →
      dot (p.map ofInt : List (Fixed F)) (q.map ofInt) n =
        .ok (ofInt (Int32.ofInt
          (∑ i ∈ Finset.range n, (p.getD i 0).toInt * (q.getD i 0).toInt))) := by
  have storable : Storable F := by omega
  refine ⟨?_, ?_, ?_, ?_, ?_⟩
  · intro i j
    exact (ofInt_add storable i j).symm
  · intro i j
    exact (ofInt_sub storable i j).symm
  · intro i
    exact (ofInt_neg storable i).symm
  · intro i j
    exact (ofInt_mul h i j).symm
  · intro p q n pos hp hq
    exact dot_map_ofInt h p q pos hp hq

/-- With fifteen fraction bits there is room for seventeen bits of an integer. Here `i` loses its
highest one, and the sum of the products has 35 bits. -/
theorem ofInt_homomorphism_lossy :
    let i : Int32 := 131075
    let j : Int32 := -65537
    (ofInt i : Fixed 15) = ofInt 3 ∧ (ofInt i * ofInt j : Fixed 15) = ofInt (i * j) ∧
      dot ([i, j, 5].map ofInt : List (Fixed 15)) ([j, i, -1].map ofInt) 3 =
        .ok (ofInt (Int32.ofInt (-17180524555))) := by
  intro i j
  obtain ⟨-, -, -, product, dots⟩ := ofInt_homomorphism (F := 15) (by decide)
  have total : ∑ k ∈ Finset.range 3, ([i, j, 5].getD k 0).toInt * ([j, i, -1].getD k 0).toInt =
      -17180524555 := by decide
  have result := dots [i, j, 5] [j, i, -1] 3 (by decide) (by decide) (by decide)
  rw [total] at result
  exact ⟨by decide, product i j, result⟩

end FixedPoint.Fixed
