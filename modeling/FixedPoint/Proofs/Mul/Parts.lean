import FixedPoint.Proofs.Mul.Range
import FixedPoint.Proofs.Parts

namespace FixedPoint.Fixed

variable {F : Nat} {x y : Fixed F}

/-- The value taken `i` times, wrapped. -/
def times (x : Fixed F) (i : Int32) : Fixed F := ⟨x.raw * i⟩

/-- What is left of a value without its whole part. -/
def fraction (x : Fixed F) : Fixed F := ⟨x.frac⟩

theorem times_eq_ofSteps (x : Fixed F) (i : Int32) :
    x.times i = ofSteps (x.raw.toInt * i.toInt) := by
  rw [← toInt_raw_inj, toInt_raw_ofSteps, times, Int32.toInt_mul]

theorem fraction_damping (h : Scalable F) (x : Fixed F) : Damping x.fraction := by
  have maskable : Maskable F := by omega
  constructor
  · exact le_iff.2 (frac_nonneg maskable x)
  · rw [lt_iff, toInt_raw_one h]
    exact frac_lt maskable x

/-- The whole part leaves the floor of a product exactly. -/
theorem mul_raw_ediv (h : Maskable F) (x y : Fixed F) :
    x.raw.toInt * y.raw.toInt / 2 ^ F =
      x.raw.toInt * y.floor.toInt + x.raw.toInt * y.frac.toInt / 2 ^ F := by
  have split : x.raw.toInt * y.raw.toInt =
      x.raw.toInt * y.frac.toInt + 2 ^ F * (x.raw.toInt * y.floor.toInt) := by
    rw [toInt_raw_eq_floor_add_frac h y]
    ring
  rw [split, Int.add_mul_ediv_left _ _ (by positivity), add_comm]

theorem mul_eq_times_add_mul_fraction (h : Scalable F) (x y : Fixed F) :
    x * y = x.times y.floor + x * y.fraction := by
  rw [mul_eq_ofSteps h, mul_raw_ediv (by omega), map_add, ← times_eq_ofSteps,
    mul_eq_ofSteps h x y.fraction, fraction]

theorem mul_fraction_between (h : Scalable F) (x y : Fixed F) :
    (0 ≤ x → 0 ≤ x * y.fraction ∧ x * y.fraction ≤ x) ∧
      (x ≤ 0 → x ≤ x * y.fraction ∧ x * y.fraction ≤ 0) := by
  obtain ⟨low, high⟩ := (fraction_damping h y).mul_between h x
  have zero : (0 : Fixed F).raw.toInt = 0 := rfl
  simp only [le_iff, zero]
  constructor
  · intro up
    exact ⟨by omega, by omega⟩
  · intro down
    exact ⟨by omega, by omega⟩

theorem mul_eq_times_of_frac_eq_zero (h : Scalable F) (x : Fixed F) (whole : y.frac = 0) :
    x * y = x.times y.floor := by
  rw [mul_of_frac_eq_zero h x whole, times_eq_ofSteps]

theorem dvd_raw_of_frac_eq_zero (h : Maskable F) (whole : y.frac = 0) : 2 ^ F ∣ y.raw.toInt := by
  rw [toInt_raw_eq_floor_add_frac h y, whole, Int32.toInt_zero, add_zero]
  exact dvd_mul_left _ _

theorem floor_one (h : Scalable F) : (one : Fixed F).floor = 1 := by
  rw [← Int32.toInt_inj, toInt_floor (by omega), toInt_raw_one h, Int.ediv_self (by positivity),
    Int32.toInt_one]

theorem times_one (x : Fixed F) : x.times 1 = x := Fixed.ext (Int32.mul_one x.raw)

/-- **A product is formed part by part.** The whole part of a factor multiplies the word of the
other, wrapped. The fraction adds a product that is rounded down, is not wrapped and lies between
zero and the other factor. So a factor without a fraction, like every whole number and one, only
multiplies the word, and nothing is rounded off. -/
theorem mul_by_parts (h : Scalable F) (x : Fixed F) :
    (∀ y : Fixed F, x * y = x.times y.floor + x * y.fraction ∧
      (x * y.fraction).raw.toInt = x.raw.toInt * y.frac.toInt / 2 ^ F ∧
      (0 ≤ x → 0 ≤ x * y.fraction ∧ x * y.fraction ≤ x) ∧
      (x ≤ 0 → x ≤ x * y.fraction ∧ x * y.fraction ≤ 0)) ∧
    (∀ y : Fixed F, y.frac = 0 →
      x * y = x.times y.floor ∧ 2 ^ F ∣ x.raw.toInt * y.raw.toInt) ∧
    (∀ i : Int32, (ofInt i : Fixed F).frac = 0 ∧
      x * ofInt i = x.times (ofInt i : Fixed F).floor) ∧
    (one : Fixed F).frac = 0 ∧ (one : Fixed F).floor = 1 ∧ x * one = x := by
  have maskable : Maskable F := by omega
  have whole : (one : Fixed F).frac = 0 := frac_ofInt maskable 1
  have identity : x * one = x := by
    rw [mul_eq_times_of_frac_eq_zero h x whole, floor_one h, times_one]
  refine ⟨?_, ?_, ?_, whole, floor_one h, identity⟩
  · intro y
    exact ⟨mul_eq_times_add_mul_fraction h x y, (fraction_damping h y).toInt_raw_mul h x,
      mul_fraction_between h x y⟩
  · intro y whole
    exact ⟨mul_eq_times_of_frac_eq_zero h x whole,
      (dvd_raw_of_frac_eq_zero maskable whole).mul_left _⟩
  · intro i
    have whole := frac_ofInt maskable i
    exact ⟨whole, mul_eq_times_of_frac_eq_zero h x whole⟩

/-- The least value times minus two and a half. The whole part is minus three, and taking the least
value so often wraps. The fraction contributes half of it. An integer with a bit too many counts as
what is left of it. -/
theorem mul_by_parts_least :
    let x : Fixed 15 := minValue
    let y : Fixed 15 := ⟨-81920⟩
    (x * y = x.times (-3) + x * ⟨16384⟩ ∧ (x.times (-3)).raw.toInt ≠ x.raw.toInt * -3 ∧
      (x * ⟨16384⟩).raw.toInt = -2 ^ 30 ∧ x ≤ x * ⟨16384⟩) ∧
    x * ofInt 131075 = x.times 3 ∧ x * one = x := by
  intro x y
  obtain ⟨general, -, wholes, -, -, identity⟩ := mul_by_parts (F := 15) (by decide) x
  have floor : y.floor = -3 := by decide
  have fraction : y.fraction = ⟨16384⟩ := by decide
  have lost : (ofInt 131075 : Fixed 15).floor = 3 := by decide
  have half : x.raw.toInt * y.frac.toInt / 2 ^ 15 = -2 ^ 30 := by decide
  obtain ⟨sum, exactly, -, down⟩ := general y
  have counted := (wholes 131075).2
  rw [floor, fraction] at sum
  rw [fraction, half] at exactly
  rw [fraction] at down
  rw [lost] at counted
  exact ⟨⟨sum, by decide, exactly, (down (by decide)).1⟩, counted, identity⟩

end FixedPoint.Fixed
