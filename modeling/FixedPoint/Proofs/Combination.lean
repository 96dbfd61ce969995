import FixedPoint.Proofs.Dot.Exact
import FixedPoint.Proofs.Whole
import Mathlib.Algebra.BigOperators.Fin

/-!
# Whole-number combinations

Sums, differences, negatives, products with whole numbers and dot products with whole weights only
count values. None of them has a fraction to round, so a whole tree of them is one integer
combination of its leaves, wrapped. It does not matter which results on the way wrapped.
-/

namespace FixedPoint

variable {F : Nat} {n : Nat}

/-- A whole number that the format keeps as it is. -/
structure Weight (F : Nat) where
  count : Int32
  room : Fixed.HasRoom F count.toInt

namespace Weight

/-- The weight as a factor. -/
def whole (w : Weight F) : Fixed F := .ofInt w.count

theorem toInt_raw_whole (h : Storable F) (w : Weight F) :
    w.whole.raw.toInt = 2 ^ F * w.count.toInt :=
  Fixed.toInt_raw_ofInt_of_hasRoom h w.room

/-- As a factor, a weight leaves no fraction. -/
theorem whole_mul_ediv (h : Storable F) (w : Weight F) (z : Int) :
    w.whole.raw.toInt * z / 2 ^ F = w.count.toInt * z := by
  rw [w.toInt_raw_whole h, mul_assoc, Int.mul_ediv_cancel_left _ (by positivity)]

end Weight

/-- A tree of operations that count values. A weight may be either operand of its product, and the
weights of a dot product either of its lists. -/
inductive Combination (F : Nat) where
  | leaf (x : Fixed F)
  | add (s t : Combination F)
  | sub (s t : Combination F)
  | neg (t : Combination F)
  | product (place : Operand) (w : Weight F) (t : Combination F)
  | dot {n : Nat} (place : Operand) (weights : Fin (n + 1) → Weight F)
      (terms : Fin (n + 1) → Combination F)

namespace Combination

/-- The product of `w` and `x`, with `w` as the given operand. -/
def productAt (place : Operand) (w x : Fixed F) : Fixed F :=
  match place with
  | .lhs => w * x
  | .rhs => x * w

/-- The dot product of all of `ws` and `xs`, with `ws` as the given operand. -/
def dotAt (place : Operand) (ws xs : List (Fixed F)) : Except Error (Fixed F) :=
  match place with
  | .lhs => Fixed.dot ws xs ws.length
  | .rhs => Fixed.dot xs ws ws.length

/-- The tree in the arithmetic of the format, where everything wraps. -/
def eval : Combination F → Except Error (Fixed F)
  | .leaf x => return x
  | .add s t => return (← s.eval) + (← t.eval)
  | .sub s t => return (← s.eval) - (← t.eval)
  | .neg t => return -(← t.eval)
  | .product place w t => return productAt place w.whole (← t.eval)
  | .dot place weights terms => do
    dotAt place (List.ofFn fun i => (weights i).whole)
      (← (List.finRange _).mapM fun i => (terms i).eval)

/-- The tree in integers, counted in steps and without bound. -/
def steps : Combination F → Int
  | .leaf x => x.raw.toInt
  | .add s t => s.steps + t.steps
  | .sub s t => s.steps - t.steps
  | .neg t => -t.steps
  | .product _ w t => w.count.toInt * t.steps
  | .dot _ weights terms => ∑ i, (weights i).count.toInt * (terms i).steps

/-- Every number that is rounded down on the way has no fraction. -/
def Unrounded : Combination F → Prop
  | .leaf _ => True
  | .add s t => s.Unrounded ∧ t.Unrounded
  | .sub s t => s.Unrounded ∧ t.Unrounded
  | .neg t => t.Unrounded
  | .product _ w t =>
    t.Unrounded ∧ ∃ x, t.eval = .ok x ∧ 2 ^ F ∣ w.whole.raw.toInt * x.raw.toInt
  | .dot (n := n) _ weights terms =>
    (∀ i, (terms i).Unrounded) ∧ ∃ x : Fin (n + 1) → Fixed F, (∀ i, (terms i).eval = .ok (x i)) ∧
      2 ^ F ∣ Fixed.exactDot (List.ofFn fun i => (weights i).whole) (List.ofFn x) (n + 1)

theorem mapM_eval {terms : Fin n → Combination F} {x : Fin n → Fixed F}
    (each : ∀ i, (terms i).eval = .ok (x i)) :
    ((List.finRange n).mapM fun i => (terms i).eval) = .ok (List.ofFn x) := by
  simp only [each, List.ofFn_eq_map]
  exact List.mapM_pure

theorem productAt_whole (h : Scalable F) (place : Operand) (w : Weight F) (x : Fixed F) :
    productAt place w.whole x = Fixed.ofSteps (w.count.toInt * x.raw.toInt) := by
  have product : w.whole * x = Fixed.ofSteps (w.count.toInt * x.raw.toInt) := by
    rw [Fixed.mul_eq_ofSteps h, w.whole_mul_ediv (by omega)]
  cases place with
  | lhs => exact product
  | rhs => exact (Fixed.mul_comm x w.whole).trans product

theorem wordAt_ofFn (x : Fin n → Fixed F) (i : Fin n) :
    Fixed.wordAt (List.ofFn x) i = (x i).raw.toInt :=
  Fixed.wordAt_of_getElem? (by simp)

theorem exactDot_whole (h : Storable F) (w : Fin n → Weight F) (x : Fin n → Fixed F) :
    Fixed.exactDot (List.ofFn fun i => (w i).whole) (List.ofFn x) n =
      2 ^ F * ∑ i, (w i).count.toInt * (x i).raw.toInt := by
  rw [Fixed.exactDot, Finset.sum_range, Finset.mul_sum]
  apply Finset.sum_congr rfl
  intro i _
  rw [wordAt_ofFn, wordAt_ofFn, (w i).toInt_raw_whole h, mul_assoc]

theorem dotAt_whole (h : Scalable F) (place : Operand) (w : Fin (n + 1) → Weight F)
    (x : Fin (n + 1) → Fixed F) :
    dotAt place (List.ofFn fun i => (w i).whole) (List.ofFn x) =
      .ok (Fixed.ofSteps (∑ i, (w i).count.toInt * (x i).raw.toInt)) := by
  have floor : Fixed.exactDot (List.ofFn fun i => (w i).whole) (List.ofFn x) (n + 1) / 2 ^ F =
      ∑ i, (w i).count.toInt * (x i).raw.toInt := by
    rw [exactDot_whole (by omega), Int.mul_ediv_cancel_left _ (by positivity)]
  cases place with
  | lhs =>
    rw [dotAt, List.length_ofFn, Fixed.dot_eq_ofSteps h (by omega) (by simp) (by simp), floor]
  | rhs =>
    rw [dotAt, List.length_ofFn, Fixed.dot_eq_ofSteps h (by omega) (by simp) (by simp),
      Fixed.exactDot_comm, floor]

/-- Counting a wrapped value is counting the number that was wrapped. -/
theorem ofSteps_count (k z : Int) :
    (Fixed.ofSteps (k * (Fixed.ofSteps z : Fixed F).raw.toInt) : Fixed F) =
      Fixed.ofSteps (k * z) :=
  Fixed.ofSteps_congr ((Fixed.toInt_raw_ofSteps_modEq z).mul_left k)

/-- One wrap at the end does for all of those on the way. -/
theorem eval_eq_ofSteps (h : Scalable F) (t : Combination F) :
    t.eval = .ok (Fixed.ofSteps t.steps) := by
  induction t with
  | leaf x =>
    rw [eval, steps, Fixed.ofSteps_toInt_raw]
    rfl
  | add s t hs ht =>
    rw [eval, hs, ht, steps, map_add]
    rfl
  | sub s t hs ht =>
    rw [eval, hs, ht, steps, map_sub]
    rfl
  | neg t ht =>
    rw [eval, ht, steps, map_neg]
    rfl
  | product place w t ht =>
    rw [eval, ht, steps, ← ofSteps_count, ← productAt_whole h place]
    rfl
  | dot place weights terms each =>
    rw [eval, mapM_eval each, steps, map_sum]
    refine (dotAt_whole h place weights _).trans ?_
    rw [map_sum]
    simp only [ofSteps_count]

theorem unrounded (h : Scalable F) (t : Combination F) : t.Unrounded := by
  have storable : Storable F := by omega
  induction t with
  | leaf x => trivial
  | add s t hs ht => exact ⟨hs, ht⟩
  | sub s t hs ht => exact ⟨hs, ht⟩
  | neg t ht => exact ht
  | product place w t ht =>
    refine ⟨ht, _, t.eval_eq_ofSteps h, ?_⟩
    rw [w.toInt_raw_whole storable]
    exact (dvd_mul_right _ _).mul_right _
  | dot place weights terms each =>
    refine ⟨each, _, fun i => (terms i).eval_eq_ofSteps h, ?_⟩
    rw [exactDot_whole storable]
    exact dvd_mul_right _ _

/-- **Deferred wrap.** However deep the tree, its result is the only word in the residue class of
its integer, and it is that integer exactly if the integer is a word. Nothing is rounded. -/
theorem eval_wraps_steps (h : Scalable F) (t : Combination F) :
    ∃ r, t.eval = .ok r ∧ r.raw.toInt ≡ t.steps [ZMOD 2 ^ 32] ∧
      (r.raw.toInt = t.steps ↔ -2 ^ 31 ≤ t.steps ∧ t.steps < 2 ^ 31) ∧ t.Unrounded := by
  refine ⟨_, t.eval_eq_ofSteps h, ?_, ?_, t.unrounded h⟩
  · exact Fixed.toInt_raw_ofSteps_modEq t.steps
  · exact Fixed.toInt_raw_ofSteps_eq_iff

/-- All three terms wrap, and so do both sides of the difference. The result is exact. -/
theorem eval_wraps_steps_cancelling :
    let w : Weight 15 := ⟨3, by decide⟩
    let v : Weight 15 := ⟨-2, by decide⟩
    let u : Weight 15 := ⟨4, by decide⟩
    let double : Combination 15 := .add (.leaf .maxValue) (.leaf .maxValue)
    let opposite : Combination 15 := .neg (.leaf .minValue)
    let t : Combination 15 :=
      .sub (.dot .lhs ![w, v] ![double, opposite]) (.product .rhs u (.leaf .maxValue))
    double.eval = .ok ⟨-2⟩ ∧ opposite.eval = .ok .minValue ∧
      t.eval = .ok ⟨-2⟩ ∧ t.steps = -2 ∧ t.Unrounded := by
  intro w v u double opposite t
  obtain ⟨r, result, -, exactly, whole⟩ := eval_wraps_steps (F := 15) (by decide) t
  have total : t.steps = -2 := by decide
  rw [total] at exactly
  have word : r.raw.toInt = -2 := exactly.2 (by decide)
  have value : r = ⟨-2⟩ := Fixed.toInt_raw_inj.1 word
  exact ⟨by decide, by decide, value ▸ result, total, whole⟩

end Combination

end FixedPoint
