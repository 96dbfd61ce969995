import FixedPoint.Proofs.Dot.Exact
import FixedPoint.Proofs.Dot.Protocol
import FixedPoint.Proofs.Mac.Range
import Mathlib.Algebra.BigOperators.Intervals
import Mathlib.Algebra.Order.BigOperators.Group.Finset

/-!
# Dot products without overflow

The accumulator of a dot product starts with the product at position zero and takes in the others
from the last position back to the first. While all these sums have 64 bits they are what it holds,
on every unit that is exact in that range, and so all such units give the same dot product.
-/

namespace FixedPoint.Fixed

open Mac (Fits)

variable {F : Nat} {M : Mac} {a b : List (Fixed F)} {n : Nat}

/-- The product of the first words and those of the words at positions `j` to `n - 1`. -/
def partialDot (a b : List (Fixed F)) (n j : Nat) : Int :=
  wordAt a 0 * wordAt b 0 + ∑ i ∈ Finset.Ico j n, wordAt a i * wordAt b i

/-- No sum on the way leaves 64 bits. -/
def Contained (a b : List (Fixed F)) (n : Nat) : Prop :=
  ∀ j < n, 1 ≤ j → Fits (partialDot a b n j)

instance (a b : List (Fixed F)) (n : Nat) : Decidable (Contained a b n) :=
  inferInstanceAs (Decidable (∀ j < n, 1 ≤ j → Fits (partialDot a b n j)))

theorem partialDot_self (a b : List (Fixed F)) (n : Nat) :
    partialDot a b n n = wordAt a 0 * wordAt b 0 := by
  rw [partialDot, Finset.Ico_self, Finset.sum_empty, add_zero]

/-- One more product is taken in. -/
theorem partialDot_of_lt {j : Nat} (h : j < n) (a b : List (Fixed F)) :
    partialDot a b n j = partialDot a b n (j + 1) + wordAt a j * wordAt b j := by
  rw [partialDot, partialDot, Finset.sum_eq_sum_Ico_succ_bot h, add_assoc,
    add_comm (wordAt a j * wordAt b j)]

theorem partialDot_one (pos : 1 ≤ n) (a b : List (Fixed F)) :
    partialDot a b n 1 = exactDot a b n := by
  rw [partialDot, exactDot, Finset.range_eq_Ico, Finset.sum_eq_sum_Ico_succ_bot pos]

/-- The calls are exact, and call number `j` leaves the sum of the products so far in the
accumulator. -/
theorem invariant_of_contained (h : M.ExactInRange) (within : Contained a b n) :
    Invariant M a b n fun j call =>
      call.Exact ∧ call.result.toInt = partialDot a b n (n - j) := by
  constructor
  · intro x y hx hy
    have product := h.mul x.raw y.raw
    have sum : partialDot a b n (n - 0) = x.raw.toInt * y.raw.toInt := by
      rw [Nat.sub_zero, partialDot_self, wordAt_of_getElem? hx, wordAt_of_getElem? hy]
    exact ⟨product, product.trans sum.symm⟩
  · rintro j x y before hj hx hy ⟨-, held⟩
    have sum : partialDot a b n (n - (j + 1)) =
        before.result.toInt + x.raw.toInt * y.raw.toInt := by
      rw [partialDot_of_lt (by omega), show n - (j + 1) + 1 = n - j by omega, held,
        wordAt_of_getElem? hx, wordAt_of_getElem? hy]
    have fits := within (n - (j + 1)) (by omega) (by omega)
    have added := h.mulAdd before.result x.raw y.raw (sum ▸ fits)
    exact ⟨added, added.trans sum.symm⟩

/-- What is narrowed in the end is the whole sum. -/
theorem Protocol.result_of_contained {calls : List Mac.Call} {r : Fixed F}
    (p : Protocol M a b n calls r) (h : M.ExactInRange) (within : Contained a b n)
    (pos : 1 ≤ n) : ∃ last, calls.getLast? = some last ∧ r = narrow last.result ∧
      last.result.toInt = exactDot a b n := by
  obtain ⟨last, isLast, result, -, held⟩ := p.last_holds (invariant_of_contained h within) pos
  refine ⟨last, isLast, result, ?_⟩
  rw [held, show n - (n - 1) = 1 by omega, partialDot_one pos]

theorem dotWith_eq_dot_of_contained (h : M.ExactInRange) (within : Contained a b n) :
    dotWith M a b n = dot a b n := by
  apply dotWith_congr rfl
  intro accepted
  obtain ⟨pos, -, -⟩ := rejection?_eq_none_iff.1 accepted
  obtain ⟨last, -, result, held⟩ :=
    (protocol_of_accepted (M := M) accepted).result_of_contained h within pos
  obtain ⟨last', -, result', held'⟩ :=
    (protocol_of_accepted (M := .exact) accepted).result_of_contained
      Mac.exact_exactInRange within pos
  rw [result, result', Int64.toInt_inj.1 (held.trans held'.symm)]

/-- Every call that is made is exact, and the accumulator goes through the sums on the way. -/
theorem getElem?_dotLogged_of_contained (h : M.ExactInRange) (within : Contained a b n) {j : Nat}
    {call : Mac.Call} (made : (dotLogged M a b n).2[j]? = some call) :
    call.Exact ∧ call.result.toInt = partialDot a b n (n - j) := by
  cases judged : rejection? a.length b.length n with
  | some e =>
    rw [dotLogged_of_rejection judged] at made
    cases made
  | none =>
    have p := protocol_of_accepted (M := M) judged
    obtain ⟨inside, -⟩ := List.getElem?_eq_some_iff.1 made
    obtain ⟨call', found, exact'⟩ := p.holds (invariant_of_contained h within) (p.count ▸ inside)
    rwa [Option.some.inj (made.symm.trans found)]

/-- The magnitudes of the first `n` words of a list together. -/
def gain (a : List (Fixed F)) (n : Nat) : Int := ∑ i ∈ Finset.range n, |wordAt a i|

theorem partialDot_eq_sum {j : Nat} (hj : 1 ≤ j) (a b : List (Fixed F)) (n : Nat) :
    partialDot a b n j = ∑ i ∈ insert 0 (Finset.Ico j n), wordAt a i * wordAt b i := by
  have outside : 0 ∉ Finset.Ico j n := by
    intro inside
    have := (Finset.mem_Ico.1 inside).1
    omega
  rw [Finset.sum_insert outside, partialDot]

/-- A sum on the way has some of the terms, so the magnitudes of all of them bound it, however the
signs cancel in the end. -/
theorem abs_partialDot_le_gain {B : Int} {j : Nat} (bound : ∀ i < n, |wordAt b i| ≤ B)
    (hj : 1 ≤ j) (hjn : j ≤ n) : |partialDot a b n j| ≤ gain a n * B := by
  have inside : insert 0 (Finset.Ico j n) ⊆ Finset.range n := by
    intro i hi
    simp only [Finset.mem_insert, Finset.mem_Ico, Finset.mem_range] at hi ⊢
    omega
  calc |partialDot a b n j|
      ≤ ∑ i ∈ insert 0 (Finset.Ico j n), |wordAt a i * wordAt b i| := by
        rw [partialDot_eq_sum hj]
        exact Finset.abs_sum_le_sum_abs _ _
    _ ≤ ∑ i ∈ Finset.range n, |wordAt a i * wordAt b i| :=
        Finset.sum_le_sum_of_subset_of_nonneg inside fun i _ _ => abs_nonneg _
    _ ≤ ∑ i ∈ Finset.range n, |wordAt a i| * B := by
        apply Finset.sum_le_sum
        intro i hi
        rw [abs_mul]
        exact mul_le_mul_of_nonneg_left (bound i (Finset.mem_range.1 hi)) (abs_nonneg _)
    _ = gain a n * B := by rw [gain, Finset.sum_mul]

theorem gain_le {A : Int} (bound : ∀ i < n, |wordAt a i| ≤ A) : gain a n ≤ n * A := by
  have total := Finset.sum_le_card_nsmul (Finset.range n) (fun i => |wordAt a i|) A
    fun i hi => bound i (Finset.mem_range.1 hi)
  rwa [Finset.card_range, nsmul_eq_mul] at total

theorem contained_of_bound {A B : Int} (bound : ∀ i < n, |wordAt a i| ≤ A ∧ |wordAt b i| ≤ B)
    (small : n * A * B ≤ 2 ^ 63 - 1) : Contained a b n := by
  intro j hjn hj
  have positive : 0 ≤ B := (abs_nonneg _).trans (bound j hjn).2
  have size : |partialDot a b n j| ≤ 2 ^ 63 - 1 :=
    calc |partialDot a b n j|
        ≤ gain a n * B := abs_partialDot_le_gain (fun i hi => (bound i hi).2) hj hjn.le
      _ ≤ n * A * B := mul_le_mul_of_nonneg_right (gain_le fun i hi => (bound i hi).1) positive
      _ ≤ 2 ^ 63 - 1 := small
  obtain ⟨low, high⟩ := abs_le.1 size
  exact ⟨by omega, by omega⟩

/-- **Overflow alone tells units apart.** On a unit that is exact for sums of 64 bits, a dot product
whose sums on the way all have 64 bits is that of the exact unit, and its accumulator goes through
these sums. They are the sums of the order in which the products are taken in. They have 64 bits if
the magnitudes of the words, multiplied by the order, have 63. Then the exact unit never wraps. -/
theorem contained_dot_eq_exact (h : M.ExactInRange) (a b : List (Fixed F)) (n : Nat) :
    (Contained a b n →
      dotWith M a b n = dot a b n ∧
      ∀ j call, (dotLogged M a b n).2[j]? = some call →
        call.Exact ∧ call.result.toInt = partialDot a b n (n - j)) ∧
    ∀ A B : Int, (∀ i < n, |wordAt a i| ≤ A ∧ |wordAt b i| ≤ B) → n * A * B ≤ 2 ^ 63 - 1 →
      Contained a b n ∧ dotWith M a b n = dot a b n ∧
      ∀ j call, (dotLogged .exact a b n).2[j]? = some call →
        call.Exact ∧ call.result.toInt = partialDot a b n (n - j) := by
  constructor
  · intro within
    refine ⟨dotWith_eq_dot_of_contained h within, ?_⟩
    intro j call made
    exact getElem?_dotLogged_of_contained h within made
  · intro A B bound small
    have within := contained_of_bound bound small
    refine ⟨within, dotWith_eq_dot_of_contained h within, ?_⟩
    intro j call made
    exact getElem?_dotLogged_of_contained Mac.exact_exactInRange within made

/-- The same three products in two orders. In one of them the accumulator leaves 64 bits on the way,
and a unit that saturates ends one step lower. Two products of the least and the largest value are
within the bound. -/
theorem contained_dot_eq_exact_saturating :
    let a : List (Fixed 15) := [minValue, minValue, minValue]
    let early : List (Fixed 15) := [minValue, minValue, maxValue]
    let late : List (Fixed 15) := [minValue, maxValue, minValue]
    let full : List (Fixed 15) := [maxValue, maxValue]
    (exactDot a early 3 = exactDot a late 3 ∧ Contained a early 3 ∧ ¬ Contained a late 3) ∧
      dotWith .saturating a early 3 = dot a early 3 ∧
      (dotWith .saturating a late 3).map raw = .ok 65535 ∧ (dot a late 3).map raw = .ok 65536 ∧
      dotWith .saturating a full 2 = dot a full 2 ∧
      ∃ call, (dotLogged .exact a full 2).2[1]? = some call ∧ call.Exact ∧
        call.result.toInt = -2 ^ 63 + 2 ^ 32 := by
  intro a early late full
  have within : Contained a early 3 := by decide
  obtain ⟨same, -⟩ := contained_dot_eq_exact Mac.saturating_exactInRange a early 3
  obtain ⟨-, small⟩ := contained_dot_eq_exact Mac.saturating_exactInRange a full 2
  obtain ⟨-, agrees, steps⟩ := small (2 ^ 31) (2 ^ 31 - 1) (by decide) (by decide)
  have last : partialDot a full 2 1 = -2 ^ 63 + 2 ^ 32 := by decide
  refine ⟨⟨by decide, within, by decide⟩, (same within).1, by decide, by decide, agrees, _, rfl, ?_⟩
  rw [← last]
  exact steps 1 _ rfl

end FixedPoint.Fixed
