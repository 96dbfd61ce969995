import FixedPoint.Proofs.Dot.Protocol
import FixedPoint.Proofs.Mac.Affine
import Mathlib.Algebra.BigOperators.Intervals

namespace FixedPoint.Fixed

variable {F : Nat} {M : Mac} {k : Int64} {term : Int32 → Int32 → Int64} {a b : List (Fixed F)}
  {n : Nat}

/-- The term of the words at a position. -/
def termAt (term : Int32 → Int32 → Int64) (a b : List (Fixed F)) (i : Nat) : Int :=
  (term (a.getD i 0).raw (b.getD i 0).raw).toInt

/-- The terms of the words at position zero and at positions `j` to `n - 1`, with the weights that
they have when the last one of them, at position `j`, has been taken in. -/
def weightedDot (k : Int64) (term : Int32 → Int32 → Int64) (a b : List (Fixed F)) (n j : Nat) :
    Int :=
  k.toInt ^ (n - j) * termAt term a b 0 +
    ∑ i ∈ Finset.Ico j n, k.toInt ^ (i - j) * termAt term a b i

theorem termAt_of_getElem? {x y : Fixed F} {i : Nat} (hx : a[i]? = some x) (hy : b[i]? = some y) :
    termAt term a b i = (term x.raw y.raw).toInt := by
  simp only [termAt, List.getD_eq_getElem?_getD, hx, hy, Option.getD_some]

theorem weightedDot_self (k : Int64) (term : Int32 → Int32 → Int64) (a b : List (Fixed F))
    (n : Nat) : weightedDot k term a b n n = termAt term a b 0 := by
  simp [weightedDot]

/-- A step raises the power of every weight by one. -/
theorem weightedDot_of_lt {j : Nat} (h : j < n) (k : Int64) (term : Int32 → Int32 → Int64)
    (a b : List (Fixed F)) :
    weightedDot k term a b n j =
      k.toInt * weightedDot k term a b n (j + 1) + termAt term a b j := by
  have first : k.toInt ^ (n - j) = k.toInt * k.toInt ^ (n - (j + 1)) := by
    rw [← pow_succ', show n - (j + 1) + 1 = n - j by omega]
  have others : ∑ i ∈ Finset.Ico (j + 1) n, k.toInt ^ (i - j) * termAt term a b i =
      k.toInt * ∑ i ∈ Finset.Ico (j + 1) n, k.toInt ^ (i - (j + 1)) * termAt term a b i := by
    rw [Finset.mul_sum]
    apply Finset.sum_congr rfl
    intro i hi
    obtain ⟨after, -⟩ := Finset.mem_Ico.1 hi
    rw [← mul_assoc, ← pow_succ', show i - (j + 1) + 1 = i - j by omega]
  rw [weightedDot, weightedDot, Finset.sum_eq_sum_Ico_succ_bot h, first, others, Nat.sub_self]
  ring

/-- Terms with the weight one are only added up. -/
theorem weightedDot_one (pos : 1 ≤ n) (term : Int32 → Int32 → Int64) (a b : List (Fixed F)) :
    weightedDot 1 term a b n 1 = ∑ i ∈ Finset.range n, termAt term a b i := by
  rw [Finset.range_eq_Ico, Finset.sum_eq_sum_Ico_succ_bot pos]
  simp [weightedDot]

/-- Call number `j` leaves the weighted terms so far in the accumulator, as far as it holds them. -/
theorem invariant_of_affine (affine : M.Affine k term) :
    Invariant M a b n fun j call =>
      call.result.toInt ≡ weightedDot k term a b n (n - j) [ZMOD 2 ^ 64] := by
  constructor
  · intro x y hx hy
    have product : (M.call (.mul x.raw y.raw)).result = term x.raw y.raw := affine.mul x.raw y.raw
    rw [Nat.sub_zero, weightedDot_self, termAt_of_getElem? hx hy, product]
  · intro j x y before hj hx hy held
    have step := affine.mulAdd_modEq before.result x.raw y.raw
    rw [weightedDot_of_lt (by omega), show n - (j + 1) + 1 = n - j by omega,
      termAt_of_getElem? hx hy]
    exact step.trans ((held.mul_left k.toInt).add_right _)

/-- The weighted terms of all positions below `n`, reduced to 64 bits, are narrowed. -/
theorem dotWith_of_affine (affine : M.Affine k term)
    (accepted : rejection? a.length b.length n = none) :
    ∃ W : Int64, dotWith M a b n = .ok (narrow W) ∧
      W.toInt ≡ weightedDot k term a b n 1 [ZMOD 2 ^ 64] := by
  obtain ⟨pos, -, -⟩ := rejection?_eq_none_iff.1 accepted
  obtain ⟨last, -, result, held⟩ :=
    (protocol_of_accepted (M := M) accepted).last_holds (invariant_of_affine affine) pos
  rw [show n - (n - 1) = 1 by omega] at held
  exact ⟨last.result, by rw [dotWith_of_accepted accepted, result], held⟩

/-- **The order of the steps shows in the weights.** What is narrowed is the only accumulator in the
residue class of the weighted terms. The first pair has the highest power of the weight, and the
others have the powers from zero on in the order of the lists. -/
theorem dotWith_eq_weighted (affine : M.Affine k term) (pos : 1 ≤ n) (ha : n ≤ a.length)
    (hb : n ≤ b.length) :
    ∃ W : Int64, dotWith M a b n = .ok (narrow W) ∧
      ∀ V : Int64, V.toInt ≡ k.toInt ^ (n - 1) * termAt term a b 0 +
        ∑ i ∈ Finset.Ico 1 n, k.toInt ^ (i - 1) * termAt term a b i [ZMOD 2 ^ 64] ↔ V = W := by
  obtain ⟨W, result, closed⟩ := dotWith_of_affine affine (rejection?_eq_none_iff.2 ⟨pos, ha, hb⟩)
  refine ⟨W, result, ?_⟩
  intro V
  rw [← Residue.toInt_modEq_iff]
  constructor
  · intro same
    exact same.trans closed.symm
  · intro same
    exact same.trans closed

/-- The weighted terms have 66 bits and the accumulator wraps. If the last two pairs change places
their weights do not go with them. -/
theorem dotWith_eq_weighted_wrapping :
    let a : List (Fixed 15) := [minValue, epsilon, maxValue]
    let a' : List (Fixed 15) := [minValue, maxValue, epsilon]
    Mac.skewed.Affine 3 Mac.skewed.mul ∧
      dotWith .skewed a a 3 = .ok (narrow (-25769803774)) ∧
      dotWith .skewed a' a' 3 = .ok (narrow (9223372015379939334)) ∧
      (narrow (-25769803774) : Fixed 15) ≠ narrow (9223372015379939334) := by
  intro a a'
  obtain ⟨W, result, unique⟩ := dotWith_eq_weighted (a := a) (b := a) (n := 3) Mac.skewed_affine
    (by decide) (by decide) (by decide)
  obtain ⟨W', result', unique'⟩ := dotWith_eq_weighted (a := a') (b := a') (n := 3)
    Mac.skewed_affine (by decide) (by decide) (by decide)
  have here : (-25769803774 : Int64) = W := (unique _).1 (by decide)
  have there : (9223372015379939334 : Int64) = W' := (unique' _).1 (by decide)
  exact ⟨Mac.skewed_affine, here ▸ result, there ▸ result', by decide⟩

end FixedPoint.Fixed
