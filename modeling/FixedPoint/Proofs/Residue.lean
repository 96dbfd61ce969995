import Mathlib.Algebra.BigOperators.Ring.Finset
import Mathlib.Algebra.Order.BigOperators.Group.Finset
import Mathlib.Data.Int.ModEq
import Mathlib.Tactic.LinearCombination
import Mathlib.Tactic.Positivity
import Mathlib.Tactic.Ring

/-!
# Floors, residues and carries

Narrowing rounds an integer down to a multiple of a power of two and keeps a residue of the
quotient. The floor of a sum is the sum of the floors and a carry from the remainders, and a floor
by `2 ^ F` modulo `2 ^ k` depends on the low `F + k` bits alone.
-/

namespace FixedPoint.Residue

variable {ι : Type}

theorem ediv_modEq {x y : Int} {F k : Nat} (h : x ≡ y [ZMOD 2 ^ (F + k)]) :
    x / 2 ^ F ≡ y / 2 ^ F [ZMOD 2 ^ k] := by
  obtain ⟨t, rfl⟩ := Int.modEq_iff_add_fac.1 h
  have split : x + 2 ^ (F + k) * t = x + 2 ^ F * (2 ^ k * t) := by rw [pow_add, mul_assoc]
  rw [split, Int.add_mul_ediv_left _ _ (by positivity)]
  exact Int.modEq_add_fac_self.symm

/-- Dropping bits twice is dropping them at once. -/
theorem ediv_pow_ediv_pow (z : Int) {F G : Nat} (h : G ≤ F) :
    z / 2 ^ G / 2 ^ (F - G) = z / 2 ^ F := by
  rw [Int.ediv_ediv_of_nonneg (by positivity), ← pow_add, Nat.add_sub_of_le h]

/-- Double a number and drop one bit more. -/
theorem two_mul_ediv (z : Int) (F : Nat) : 2 * z / 2 ^ (F + 1) = z / 2 ^ F := by
  rw [pow_succ', Int.mul_ediv_mul_of_pos _ _ (by decide)]

/-- Rounding down is not symmetric: if there is a fraction to drop, the floor of the negative is one
less than the negative of the floor. -/
theorem neg_ediv {m : Int} (hm : 0 < m) (x : Int) :
    -x / m = -(x / m) - if m ∣ x then 0 else 1 := by
  rw [Int.neg_ediv, Int.sign_eq_one_of_pos hm]

/-- A multiple of a higher power of two leaves the floor exactly. -/
theorem sub_mul_ediv (x t : Int) {F k : Nat} (h : F ≤ k) :
    (x - 2 ^ k * t) / 2 ^ F = x / 2 ^ F - 2 ^ (k - F) * t := by
  have split : x - 2 ^ k * t = x + 2 ^ F * -(2 ^ (k - F) * t) := by
    rw [← Nat.add_sub_of_le h, pow_add, Nat.add_sub_cancel_left]
    ring
  rw [split, Int.add_mul_ediv_left _ _ (by positivity)]
  ring

/-- What the remainders of a family of numbers carry together into the sum of their floors. -/
def carryOf (m : Int) (s : Finset ι) (f : ι → Int) : Int := (∑ i ∈ s, f i % m) / m

theorem sum_ediv (s : Finset ι) (f : ι → Int) {m : Int} (hm : m ≠ 0) :
    (∑ i ∈ s, f i) / m = ∑ i ∈ s, f i / m + carryOf m s f := by
  have parts : ∑ i ∈ s, f i = ∑ i ∈ s, f i % m + m * ∑ i ∈ s, f i / m := by
    rw [Finset.mul_sum, ← Finset.sum_add_distrib]
    exact Finset.sum_congr rfl fun i _ => (Int.emod_add_mul_ediv (f i) m).symm
  rw [parts, Int.add_mul_ediv_left _ _ hm, add_comm, carryOf]

/-- The remainders of `k` numbers carry less than `k`. -/
theorem carryOf_bounds (s : Finset ι) (f : ι → Int) {m : Int} (hm : 0 < m) (hs : s.Nonempty) :
    0 ≤ carryOf m s f ∧ carryOf m s f ≤ s.card - 1 := by
  constructor
  · exact Int.ediv_nonneg (Finset.sum_nonneg fun i _ => Int.emod_nonneg _ hm.ne') hm.le
  · have small : ∑ i ∈ s, f i % m < ∑ _i ∈ s, m :=
      Finset.sum_lt_sum_of_nonempty hs fun i _ => Int.emod_lt_of_pos _ hm
    rw [Finset.sum_const, nsmul_eq_mul] at small
    have := Int.ediv_lt_of_lt_mul hm small
    rw [carryOf]
    omega

/-- What the remainders of two numbers carry into the sum of their floors. -/
def carry (m x y : Int) : Int := if m ≤ x % m + y % m then 1 else 0

theorem add_ediv {m : Int} (hm : 0 < m) (x y : Int) :
    (x + y) / m = x / m + y / m + carry m x y := by
  rw [Int.add_ediv hm.ne', Int.sign_eq_one_of_pos hm, Int.natCast_natAbs, abs_of_pos hm, carry]

theorem bmod_modEq (z : Int) (k : Nat) : z.bmod (2 ^ k) ≡ z [ZMOD 2 ^ k] := by
  have h := Int.bmod_emod (x := z) (m := 2 ^ k)
  rwa [Int.natCast_pow] at h

theorem bmod_modEq_of_le (z : Int) {j k : Nat} (le : j ≤ k) : z.bmod (2 ^ k) ≡ z [ZMOD 2 ^ j] :=
  (bmod_modEq z k).of_dvd (pow_dvd_pow 2 le)

theorem bmod_congr {y z : Int} {k : Nat} (h : y ≡ z [ZMOD 2 ^ k]) :
    y.bmod (2 ^ k) = z.bmod (2 ^ k) := by
  have same : y % ((2 ^ k : Nat) : Int) = z % ((2 ^ k : Nat) : Int) := by
    rw [Int.natCast_pow]
    exact h
  rw [← Int.emod_bmod, same, Int.emod_bmod]

/-- An accumulator is named by its residue class. -/
theorem toInt_modEq_iff {x y : Int64} : x.toInt ≡ y.toInt [ZMOD 2 ^ 64] ↔ x = y := by
  constructor
  · intro h
    exact Int64.toInt_inj.1 (x.toInt_bmod.symm.trans ((bmod_congr h).trans y.toInt_bmod))
  · rintro rfl
    rfl

/-- An integer is its own residue exactly if it is the value of a word. -/
theorem bmod_eq_self_iff {z : Int} : z.bmod (2 ^ 32) = z ↔ -2 ^ 31 ≤ z ∧ z < 2 ^ 31 := by
  constructor
  · intro h
    have low := Int.le_bmod (x := z) (m := 2 ^ 32) (by decide)
    have high := Int.bmod_lt (x := z) (m := 2 ^ 32) (by decide)
    rw [h] at low high
    omega
  · intro h
    exact Int.bmod_eq_of_le (by omega) (by omega)

theorem ediv_between {lo hi z : Int} {F : Nat} (low : lo * 2 ^ F ≤ z) (high : z ≤ hi * 2 ^ F) :
    lo ≤ z / 2 ^ F ∧ z / 2 ^ F ≤ hi :=
  ⟨Int.le_ediv_of_mul_le (by positivity) low, Int.ediv_le_of_le_mul (by positivity) high⟩

/-- A number has at most `k` bits beside its sign in its floor exactly if it has `F` more. -/
theorem ediv_bounds_iff {z : Int} {k F : Nat} :
    (-2 ^ k ≤ z / 2 ^ F ∧ z / 2 ^ F < 2 ^ k) ↔ -2 ^ (k + F) ≤ z ∧ z < 2 ^ (k + F) := by
  have pos : (0 : Int) < 2 ^ F := by positivity
  rw [Int.le_ediv_iff_mul_le pos, Int.ediv_lt_iff_lt_mul pos, pow_add, neg_mul]

/-- Of two numbers the floor decides which is less, and between equal floors the remainder. -/
theorem lt_iff_ediv_emod {p : Int} (hp : 0 < p) (x y : Int) :
    x < y ↔ x / p < y / p ∨ x / p = y / p ∧ x % p < y % p := by
  have hx := Int.mul_ediv_add_emod x p
  have hy := Int.mul_ediv_add_emod y p
  constructor
  · intro less
    rcases (Int.ediv_le_ediv hp less.le).lt_or_eq with floors | floors
    · exact .inl floors
    · rw [floors] at hx
      exact .inr ⟨floors, by omega⟩
  · rintro (floors | ⟨floors, rest⟩)
    · by_contra more
      exact absurd (Int.ediv_le_ediv hp (not_lt.1 more)) (not_le.2 floors)
    · rw [floors] at hx
      omega

/-- A number that is scaled down and rounded down does not pass zero. -/
theorem mul_ediv_between {p q : Int} (hq : 0 ≤ q) (hqp : q < p) (z : Int) :
    min z 0 ≤ z * q / p ∧ z * q / p ≤ max z 0 := by
  have hp : 0 < p := by omega
  rcases le_total 0 z with up | down
  · have high : z * q ≤ z * p := mul_le_mul_of_nonneg_left hqp.le up
    constructor
    · exact (min_le_right z 0).trans (Int.ediv_nonneg (mul_nonneg up hq) hp.le)
    · exact (Int.ediv_le_of_le_mul hp high).trans (le_max_left z 0)
  · have low : z * p ≤ z * q := mul_le_mul_of_nonpos_left hqp.le down
    have high : z * q ≤ 0 * p := by
      rw [zero_mul]
      exact mul_nonpos_of_nonpos_of_nonneg down hq
    constructor
    · exact (min_le_left z 0).trans (Int.le_ediv_of_mul_le hp low)
    · exact (Int.ediv_le_of_le_mul hp high).trans (le_max_right z 0)

/-- Scaling down and rounding down keeps a number exactly if it is not positive and the fraction
that is scaled off it is less than one. -/
theorem mul_ediv_eq_self_iff {p q : Int} (hq : 0 ≤ q) (hqp : q < p) (z : Int) :
    z * q / p = z ↔ -((p - 1) / (p - q)) ≤ z ∧ z ≤ 0 := by
  have hp : 0 < p := by omega
  have gap : 0 < p - q := by omega
  have off : z * (p - q) = z * p - z * q := mul_sub z p q
  have band : -((p - 1) / (p - q)) ≤ z ↔ -z * (p - q) ≤ p - 1 := by
    rw [neg_le, Int.le_ediv_iff_mul_le gap]
  have sign : z ≤ 0 ↔ z * (p - q) ≤ 0 := by
    rw [← mul_le_mul_iff_of_pos_right gap, zero_mul]
  rw [Int.ediv_eq_iff_of_pos hp, band, sign, neg_mul, off]
  omega

/-- The floors of two numbers differ by less than one more than the numbers do. -/
theorem abs_ediv_sub_ediv_lt {p : Int} (hp : 0 < p) (x y : Int) :
    |x / p - y / p| * p < |x - y| + p := by
  have hx := Int.emod_lt_of_pos x hp
  have hx' := Int.emod_nonneg x hp.ne'
  have hy := Int.emod_lt_of_pos y hp
  have hy' := Int.emod_nonneg y hp.ne'
  have parts : (x / p - y / p) * p = (x - y) - (x % p - y % p) := by
    rw [sub_mul, mul_comm, mul_comm (y / p)]
    have := Int.mul_ediv_add_emod x p
    have := Int.mul_ediv_add_emod y p
    omega
  have rest : |x % p - y % p| < p := abs_lt.2 ⟨by omega, by omega⟩
  calc |x / p - y / p| * p
      = |(x - y) - (x % p - y % p)| := by rw [← parts, abs_mul, abs_of_pos hp]
    _ ≤ |x - y| + |x % p - y % p| := abs_sub _ _
    _ < |x - y| + p := by omega

/-- A product of three numbers that is rounded down between the factors depends on the grouping by
no more than the outer factors: each of them multiplies the fraction that the other two have
lost. -/
theorem abs_regroup_le {p : Int} (hp : 0 < p) (a b c : Int) :
    |a * b / p * c - a * (b * c / p)| ≤ |a| + |c| := by
  have left := Int.mul_ediv_add_emod (a * b) p
  have right := Int.mul_ediv_add_emod (b * c) p
  have scaled : (a * b / p * c - a * (b * c / p)) * p = a * (b * c % p) - a * b % p * c := by
    linear_combination c * left - a * right
  have lost : ∀ z : Int, |z % p| ≤ p := by
    intro z
    rw [abs_of_nonneg (Int.emod_nonneg z hp.ne')]
    exact (Int.emod_lt_of_pos z hp).le
  refine le_of_mul_le_mul_right ?_ hp
  calc |a * b / p * c - a * (b * c / p)| * p
      = |a * (b * c % p) - a * b % p * c| := by rw [← scaled, abs_mul, abs_of_pos hp]
    _ ≤ |a * (b * c % p)| + |a * b % p * c| := abs_sub _ _
    _ = |a| * |b * c % p| + |a * b % p| * |c| := by rw [abs_mul, abs_mul]
    _ ≤ |a| * p + p * |c| :=
        add_le_add (mul_le_mul_of_nonneg_left (lost _) (abs_nonneg a))
          (mul_le_mul_of_nonneg_right (lost _) (abs_nonneg c))
    _ = (|a| + |c|) * p := by ring

end FixedPoint.Residue
