import FixedPoint.Proofs.Mul.Range
import Mathlib.Logic.Function.Iterate

/-!
# Repeated decay

A value is multiplied again and again by a factor that is not negative and less than one. Every step
leaves the value where it is or brings it nearer to zero, so after as many steps as its magnitude it
rests. Zero is the only resting place that is not negative. Rounding down holds a negative value up
as soon as a step would take less than one off its magnitude: the values where this happens are the
dead band.
-/

namespace FixedPoint.Fixed

variable {F : Nat} {a x : Fixed F}

/-- The value after `k` products with the factor `a`. -/
def decay (a : Fixed F) (k : Nat) (x : Fixed F) : Fixed F := (· * a)^[k] x

/-- The largest magnitude at which a negative value rests under the factor `a`. -/
def deadBand (a : Fixed F) : Int := (2 ^ F - 1) / (2 ^ F - a.raw.toInt)

theorem decay_succ (a : Fixed F) (k : Nat) (x : Fixed F) :
    decay a (k + 1) x = decay a k x * a :=
  Function.iterate_succ_apply' _ k x

theorem decay_succ' (a : Fixed F) (k : Nat) (x : Fixed F) :
    decay a (k + 1) x = decay a k (x * a) :=
  Function.iterate_succ_apply _ k x

/-- What one product keeps, the whole sequence keeps. -/
theorem decay_invariant (Holds : Fixed F → Prop) (start : Holds x)
    (step : ∀ y, Holds y → Holds (y * a)) (k : Nat) : Holds (decay a k x) :=
  Function.Iterate.rec Holds start step k

theorem decay_of_mul_eq_self (rest : x * a = x) (k : Nat) : decay a k x = x :=
  Function.iterate_fixed rest k

namespace Damping

theorem deadBand_nonneg (h : Scalable F) (d : Damping a) : 0 ≤ deadBand a := by
  have low := d.toInt_nonneg
  have high := d.toInt_lt h
  exact Int.ediv_nonneg (by omega) (by omega)

/-- The resting places are zero and the dead band below it. -/
theorem mul_eq_self_iff (h : Scalable F) (d : Damping a) (x : Fixed F) :
    x * a = x ↔ -deadBand a ≤ x.raw.toInt ∧ x.raw.toInt ≤ 0 := by
  rw [← toInt_raw_inj, d.toInt_raw_mul h]
  exact Residue.mul_ediv_eq_self_iff d.toInt_nonneg (d.toInt_lt h) _

theorem natAbs_mul_le (h : Scalable F) (d : Damping a) (x : Fixed F) :
    (x * a).raw.toInt.natAbs ≤ x.raw.toInt.natAbs := by
  obtain ⟨low, high⟩ := d.mul_between h x
  omega

theorem mul_eq_self_or_lt (h : Scalable F) (d : Damping a) (x : Fixed F) :
    x * a = x ∨ (x * a).raw.toInt.natAbs < x.raw.toInt.natAbs := by
  obtain ⟨low, high⟩ := d.mul_between h x
  by_cases rest : (x * a).raw.toInt = x.raw.toInt
  · exact .inl (toInt_raw_inj.1 rest)
  · exact .inr (by omega)

/-- A value rests after as many steps as its magnitude. -/
theorem decay_rests (h : Scalable F) (d : Damping a) {k : Nat}
    (late : x.raw.toInt.natAbs ≤ k) : decay a k x * a = decay a k x := by
  induction k generalizing x with
  | zero =>
    rcases d.mul_eq_self_or_lt h x with rest | nearer
    · exact rest
    · omega
  | succ k ih =>
    rcases d.mul_eq_self_or_lt h x with rest | nearer
    · rw [decay_of_mul_eq_self rest, rest]
    · rw [decay_succ']
      exact ih (by omega)

theorem decay_nonneg (h : Scalable F) (d : Damping a) (up : 0 ≤ x.raw.toInt) (k : Nat) :
    0 ≤ (decay a k x).raw.toInt := by
  refine decay_invariant (fun y => 0 ≤ y.raw.toInt) up ?_ k
  intro y hy
  obtain ⟨low, -⟩ := d.mul_between h y
  omega

theorem decay_neg (h : Scalable F) (d : Damping a) (positive : 0 < a.raw.toInt)
    (down : x.raw.toInt < 0) (k : Nat) : (decay a k x).raw.toInt < 0 := by
  refine decay_invariant (fun y => y.raw.toInt < 0) down ?_ k
  intro y hy
  rw [d.toInt_raw_mul h]
  exact Int.ediv_neg_of_neg_of_pos (mul_neg_of_neg_of_pos hy positive) (by positivity)

/-- No step passes the edge of the dead band, because the edge rests and products keep the order. -/
theorem decay_le_edge (h : Scalable F) (d : Damping a) (outside : x.raw.toInt ≤ -deadBand a)
    (k : Nat) : (decay a k x).raw.toInt ≤ -deadBand a := by
  have band := d.deadBand_nonneg h
  have edge := (Residue.mul_ediv_eq_self_iff d.toInt_nonneg (d.toInt_lt h) (-deadBand a)).2
    ⟨le_rfl, by omega⟩
  refine decay_invariant (fun y => y.raw.toInt ≤ -deadBand a) outside ?_ k
  intro y hy
  rw [d.toInt_raw_mul h, ← edge]
  exact Int.ediv_le_ediv (by positivity) (mul_le_mul_of_nonneg_right hy d.toInt_nonneg)

theorem decay_eq_zero (h : Scalable F) (d : Damping a) (up : 0 ≤ x.raw.toInt) {k : Nat}
    (late : x.raw.toInt.natAbs ≤ k) : decay a k x = 0 := by
  obtain ⟨-, high⟩ := (d.mul_eq_self_iff h _).1 (d.decay_rests h late)
  have low := d.decay_nonneg h up k
  exact toInt_raw_inj.1 (le_antisymm high low)

theorem toInt_raw_decay_of_neg (h : Scalable F) (d : Damping a) (down : x.raw.toInt < 0) {k : Nat}
    (late : x.raw.toInt.natAbs ≤ k) :
    (decay a k x).raw.toInt = max x.raw.toInt (-deadBand a) := by
  rcases le_total (-deadBand a) x.raw.toInt with inside | outside
  · rw [decay_of_mul_eq_self ((d.mul_eq_self_iff h x).2 ⟨inside, down.le⟩), max_eq_left inside]
  · obtain ⟨low, -⟩ := (d.mul_eq_self_iff h _).1 (d.decay_rests h late)
    rw [max_eq_right outside]
    exact le_antisymm (d.decay_le_edge h outside k) low

end Damping

/-- **Decay settles.** No step wraps and none leads away from zero. After as many steps as its
magnitude, a value that was not negative is zero. A negative one is where it started, if that is in
the dead band, and else at its edge. It is negative at every step unless the factor is zero. -/
theorem decay_settles (h : Scalable F) (d : Damping a) (x : Fixed F) :
    (∀ k, (decay a (k + 1) x).raw.toInt = (decay a k x).raw.toInt * a.raw.toInt / 2 ^ F ∧
      (decay a (k + 1) x).raw.toInt.natAbs ≤ (decay a k x).raw.toInt.natAbs) ∧
    (∀ k, x.raw.toInt.natAbs ≤ k →
      (0 ≤ x → decay a k x = 0) ∧
      (x < 0 → (decay a k x).raw.toInt = max x.raw.toInt (-deadBand a))) ∧
    (0 < a → x < 0 → ∀ k, decay a k x < 0) := by
  refine ⟨?_, ?_, ?_⟩
  · intro k
    rw [decay_succ]
    exact ⟨d.toInt_raw_mul h _, d.natAbs_mul_le h _⟩
  · intro k late
    constructor
    · intro up
      exact d.decay_eq_zero h (le_iff.1 up) late
    · intro down
      exact d.toInt_raw_decay_of_neg h (lt_iff.1 down) late
  · intro positive down k
    exact lt_iff.2 (d.decay_neg h (lt_iff.1 positive) (lt_iff.1 down) k)

/-- The largest factor leaves the widest dead band. A half leaves one step. -/
theorem decay_settles_at_edge :
    let slow : Fixed 15 := ⟨2 ^ 15 - 1⟩
    let half : Fixed 15 := ⟨2 ^ 14⟩
    (deadBand slow = 2 ^ 15 - 1 ∧ (decay slow (2 ^ 31) minValue).raw.toInt = -2 ^ 15 + 1 ∧
      decay slow (2 ^ 31) maxValue = 0) ∧
    (deadBand half = 1 ∧ (decay half 1000 ⟨-1000⟩).raw.toInt = -1 ∧ decay half 1000 ⟨1000⟩ = 0 ∧
      ∀ k, decay half k ⟨-1000⟩ < 0) := by
  intro slow half
  have dSlow : Damping slow := ⟨by decide, by decide⟩
  have dHalf : Damping half := ⟨by decide, by decide⟩
  have wide : deadBand slow = 2 ^ 15 - 1 := by decide
  have narrow : deadBand half = 1 := by decide
  obtain ⟨-, fromLeast, -⟩ := decay_settles (by decide) dSlow minValue
  obtain ⟨-, fromGreatest, -⟩ := decay_settles (by decide) dSlow maxValue
  obtain ⟨-, below, stays⟩ := decay_settles (by decide) dHalf ⟨-1000⟩
  obtain ⟨-, above, -⟩ := decay_settles (by decide) dHalf ⟨1000⟩
  refine ⟨⟨wide, ?_, ?_⟩, narrow, ?_, ?_, ?_⟩
  · rw [(fromLeast (2 ^ 31) (by decide)).2 (by decide), wide]
    decide
  · exact (fromGreatest (2 ^ 31) (by decide)).1 (by decide)
  · rw [(below 1000 (by decide)).2 (by decide), narrow]
    decide
  · exact (above 1000 (by decide)).1 (by decide)
  · exact stays (by decide) (by decide)

end FixedPoint.Fixed
