import FixedPoint.Proofs.Dot.Exact
import FixedPoint.Span
import Mathlib.Combinatorics.Enumerative.Composition

namespace FixedPoint.Fixed

variable {F : Nat} {a b : List (Fixed F)} {n : Nat}

/-- The positions of a block. -/
def block (c : Composition n) (j : Fin c.length) : Span := ⟨c.sizeUpTo j, c.blocksFun j⟩

/-- The sum of the products of the words in a span, without bound. -/
def exactBlock (a b : List (Fixed F)) (s : Span) : Int :=
  ∑ i ∈ Finset.range s.length, wordAt a (s.start + i) * wordAt b (s.start + i)

theorem block_within {size : Nat} (c : Composition n) (j : Fin c.length) (h : n ≤ size) :
    (block c j).Within size := by
  have next := c.sizeUpTo_succ' j
  have last := c.sizeUpTo_le (j + 1)
  simp only [Span.Within, block]
  omega

theorem wordAt_slice (s : Span) (a : List (Fixed F)) {i : Nat} (hi : i < s.length) :
    wordAt (s.slice a) i = wordAt a (s.start + i) := by
  rw [wordAt, wordAt, List.getD_eq_getElem?_getD, List.getD_eq_getElem?_getD,
    Span.getElem?_slice hi]

theorem exactDot_slice (s : Span) (a b : List (Fixed F)) :
    exactDot (s.slice a) (s.slice b) s.length = exactBlock a b s := by
  apply Finset.sum_congr rfl
  intro i hi
  rw [wordAt_slice s a (Finset.mem_range.1 hi), wordAt_slice s b (Finset.mem_range.1 hi)]

/-- Every position lies in one block. -/
theorem sum_blocks (c : Composition n) (f : Nat → Int) :
    ∑ i ∈ Finset.range n, f i =
      ∑ j, ∑ i ∈ Finset.range (block c j).length, f ((block c j).start + i) := by
  calc ∑ i ∈ Finset.range n, f i
      = ∑ i : Fin n, f i := (Fin.sum_univ_eq_sum_range f n).symm
    _ = ∑ p : Σ j, Fin (c.blocksFun j), f (c.embedding p.1 p.2) :=
      (Fintype.sum_equiv c.blocksFinEquiv _ _ fun _ => rfl).symm
    _ = ∑ j, ∑ i : Fin (c.blocksFun j), f (c.sizeUpTo j + i) := by
      rw [Fintype.sum_sigma]
      rfl
    _ = ∑ j, ∑ i ∈ Finset.range (block c j).length, f ((block c j).start + i) := by
      apply Finset.sum_congr rfl
      intro j _
      exact Fin.sum_univ_eq_sum_range (fun i => f (c.sizeUpTo j + i)) (c.blocksFun j)

theorem exactDot_eq_sum_blocks (c : Composition n) (a b : List (Fixed F)) :
    exactDot a b n = ∑ j, exactBlock a b (block c j) :=
  sum_blocks c fun i => wordAt a i * wordAt b i

/-- What the fractions that the blocks drop carry together. -/
def blockCarry (c : Composition n) (a b : List (Fixed F)) : Int :=
  Residue.carryOf (2 ^ F) Finset.univ fun j => exactBlock a b (block c j)

theorem dot_block (h : Scalable F) (c : Composition n) (j : Fin c.length) (ha : n ≤ a.length)
    (hb : n ≤ b.length) :
    dot ((block c j).slice a) ((block c j).slice b) (block c j).length =
      .ok (ofSteps (exactBlock a b (block c j) / 2 ^ F)) := by
  have pos : 1 ≤ (block c j).length := c.one_le_blocksFun j
  rw [dot_eq_ofSteps h pos, exactDot_slice]
  · exact (Span.length_slice (block_within c j ha)).ge
  · exact (Span.length_slice (block_within c j hb)).ge

theorem ofSteps_exactBlock_of_length_eq_one (h : Scalable F) {s : Span} (one : s.length = 1) :
    ofSteps (exactBlock a b s / 2 ^ F) = a.getD s.start 0 * b.getD s.start 0 := by
  rw [mul_eq_ofSteps h, exactBlock, one, Finset.sum_range_one]
  rfl

/-- **The exact gap.** However a dot product is cut into blocks, it is the sum of their dot products
and of one carry, which is less than the number of blocks. A block of one pair is its product, so
with such blocks the carry is what rounding once gains over rounding every term. -/
theorem dot_eq_sum_of_blocks (h : Scalable F) (pos : 1 ≤ n) (ha : n ≤ a.length)
    (hb : n ≤ b.length) :
    (∀ c : Composition n, ∃ D : Fin c.length → Fixed F,
      (∀ j, dot ((block c j).slice a) ((block c j).slice b) (block c j).length = .ok (D j)) ∧
      (∀ j, (block c j).length = 1 →
        D j = a.getD (block c j).start 0 * b.getD (block c j).start 0) ∧
      dot a b n = .ok (∑ j, D j + ofSteps (blockCarry c a b)) ∧
      0 ≤ blockCarry c a b ∧ blockCarry c a b ≤ c.length - 1) ∧
    dot a b n = .ok (∑ i ∈ Finset.range n, a.getD i 0 * b.getD i 0 +
      ofSteps (Residue.carryOf (2 ^ F) (Finset.range n) fun i => wordAt a i * wordAt b i)) := by
  have whole := dot_eq_ofSteps h pos ha hb
  constructor
  · intro c
    refine ⟨fun j => ofSteps (exactBlock a b (block c j) / 2 ^ F), ?_, ?_, ?_, ?_⟩
    · intro j
      exact dot_block h c j ha hb
    · intro j one
      exact ofSteps_exactBlock_of_length_eq_one h one
    · rw [whole, exactDot_eq_sum_blocks c, ofSteps_sum_ediv, blockCarry]
    · have some : (Finset.univ : Finset (Fin c.length)).Nonempty :=
        Finset.univ_nonempty_iff.2 (Fin.pos_iff_nonempty.1 (c.length_pos_iff.2 pos))
      have bounds := Residue.carryOf_bounds (m := 2 ^ F) _
        (fun j => exactBlock a b (block c j)) (by positivity) some
      rwa [Finset.card_fin] at bounds
  · rw [whole, exactDot, ofSteps_sum_ediv]
    have terms : ∀ i, ofSteps (wordAt a i * wordAt b i / 2 ^ F) = a.getD i 0 * b.getD i 0 :=
      fun i => (mul_eq_ofSteps h (a.getD i 0) (b.getD i 0)).symm
    simp only [terms]

/-- The accumulator of the first block wraps, and the two blocks drop half a step each. -/
theorem dot_eq_sum_of_blocks_wrapping :
    let a : List (Fixed 15) := [minValue, minValue, epsilon, epsilon]
    let b : List (Fixed 15) := [minValue, minValue, ⟨2 ^ 14⟩, ⟨2 ^ 14⟩]
    let c : Composition 4 := (Composition.single 3 (by decide)).append (.single 1 (by decide))
    blockCarry c a b = 1 ∧ ∃ D : Fin c.length → Fixed 15,
      (∀ j, dot ((block c j).slice a) ((block c j).slice b) (block c j).length = .ok (D j)) ∧
      dot a b 4 = .ok (∑ j, D j + epsilon) := by
  intro a b c
  have carry : blockCarry c a b = 1 := by decide
  obtain ⟨D, blocks, -, total, -⟩ := (dot_eq_sum_of_blocks (a := a) (b := b) (n := 4)
    (by decide) (by decide) (by decide) (by decide)).1 c
  refine ⟨carry, D, blocks, ?_⟩
  rw [total, carry, ofSteps_one]

end FixedPoint.Fixed
