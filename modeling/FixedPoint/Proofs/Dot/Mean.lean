import FixedPoint.Fixed.Order
import FixedPoint.Proofs.Dot.Range
import Mathlib.Data.List.GetD

namespace FixedPoint.Fixed

variable {F : Nat} {a b : List (Fixed F)} {n : Nat}

/-- No weight is negative and all of them together are one. -/
structure Averaging (a : List (Fixed F)) (n : Nat) : Prop where
  nonneg : ∀ i < n, 0 ≤ a.getD i 0
  total : ∑ i ∈ Finset.range n, wordAt a i = 2 ^ F

/-- The exact unit computes a dot product in integers, within `31 + F` bits beside the sign, and the
last of them is rounded down to a word as it is. -/
structure Unwrapped (a b : List (Fixed F)) (n : Nat) (r : Fixed F) : Prop where
  steps : ∀ call ∈ (dotLogged .exact a b n).2,
    call.Exact ∧ |call.result.toInt| ≤ 2 ^ (31 + F)
  last : ∃ call, (dotLogged .exact a b n).2.getLast? = some call ∧
    call.result.toInt = exactDot a b n ∧ r.raw.toInt = call.result.toInt / 2 ^ F

theorem Averaging.wordAt_nonneg (h : Averaging a n) {i : Nat} (hi : i < n) : 0 ≤ wordAt a i :=
  le_iff.1 (h.nonneg i hi)

theorem Averaging.gain_eq (h : Averaging a n) : gain a n = 2 ^ F := by
  rw [← h.total, gain]
  apply Finset.sum_congr rfl
  intro i hi
  exact abs_of_nonneg (h.wordAt_nonneg (Finset.mem_range.1 hi))

/-- A sum under weights that are not negative grows with its terms. -/
theorem sum_mul_le_sum_mul (nonneg : ∀ i < n, 0 ≤ wordAt a i) {f g : Nat → Int}
    (le : ∀ i < n, f i ≤ g i) :
    ∑ i ∈ Finset.range n, wordAt a i * f i ≤ ∑ i ∈ Finset.range n, wordAt a i * g i := by
  apply Finset.sum_le_sum
  intro i hi
  have inside := Finset.mem_range.1 hi
  exact mul_le_mul_of_nonneg_left (le i inside) (nonneg i inside)

theorem Averaging.sum_mul_const (h : Averaging a n) (z : Int) :
    ∑ i ∈ Finset.range n, wordAt a i * z = z * 2 ^ F := by
  rw [← Finset.sum_mul, h.total, mul_comm]

/-- The floor of a mean is between the bounds of the values. -/
theorem Averaging.floor_bounds (h : Averaging a n) {lo hi : Int}
    (bounds : ∀ i < n, lo ≤ wordAt b i ∧ wordAt b i ≤ hi) :
    lo ≤ exactDot a b n / 2 ^ F ∧ exactDot a b n / 2 ^ F ≤ hi := by
  have weights : ∀ i < n, 0 ≤ wordAt a i := fun i => h.wordAt_nonneg
  apply Residue.ediv_between
  · rw [← h.sum_mul_const]
    exact sum_mul_le_sum_mul weights fun i inside => (bounds i inside).1
  · rw [← h.sum_mul_const]
    exact sum_mul_le_sum_mul weights fun i inside => (bounds i inside).2

theorem abs_floor_le (small : gain a n ≤ 2 ^ F) (pos : 1 ≤ n) {B : Int}
    (bound : ∀ i < n, |wordAt b i| ≤ B) : |exactDot a b n / 2 ^ F| ≤ B := by
  have positive : 0 ≤ B := (abs_nonneg _).trans (bound 0 pos)
  have size : |exactDot a b n| ≤ B * 2 ^ F :=
    calc |exactDot a b n|
        = |partialDot a b n 1| := by rw [partialDot_one pos]
      _ ≤ gain a n * B := abs_partialDot_le_gain bound le_rfl pos
      _ ≤ 2 ^ F * B := mul_le_mul_of_nonneg_right small positive
      _ = B * 2 ^ F := mul_comm _ _
  obtain ⟨low, high⟩ := abs_le.1 size
  rw [← neg_mul] at low
  exact abs_le.2 (Residue.ediv_between low high)

theorem abs_wordAt_le (b : List (Fixed F)) (i : Nat) : |wordAt b i| ≤ 2 ^ 31 := by
  have below := (b.getD i 0).raw.toInt_lt
  have above := (b.getD i 0).raw.le_toInt
  exact abs_le.2 ⟨above, by unfold wordAt; omega⟩

theorem abs_partialDot_le_of_gain (small : gain a n ≤ 2 ^ F) {j : Nat} (hj : 1 ≤ j)
    (hjn : j ≤ n) : |partialDot a b n j| ≤ 2 ^ (31 + F) :=
  calc |partialDot a b n j|
      ≤ gain a n * 2 ^ 31 := abs_partialDot_le_gain (fun i _ => abs_wordAt_le b i) hj hjn
    _ ≤ 2 ^ F * 2 ^ 31 := mul_le_mul_of_nonneg_right small (by decide)
    _ = 2 ^ (31 + F) := by rw [← pow_add, add_comm]

theorem contained_of_gain (h : Scalable F) (small : gain a n ≤ 2 ^ F) : Contained a b n := by
  intro j hjn hj
  have narrower : (2 : Int) ^ (31 + F) ≤ 2 ^ 60 := pow_le_pow_right₀ (by decide) (by omega)
  obtain ⟨low, high⟩ := abs_le.1 (abs_partialDot_le_of_gain (b := b) small hj hjn.le)
  exact ⟨by omega, by omega⟩

/-- A dot product under such weights wraps nowhere if its floor is a word. -/
theorem unwrapped_of_gain (h : Scalable F) (pos : 1 ≤ n) (ha : n ≤ a.length) (hb : n ≤ b.length)
    (small : gain a n ≤ 2 ^ F)
    (word : -2 ^ 31 ≤ exactDot a b n / 2 ^ F ∧ exactDot a b n / 2 ^ F < 2 ^ 31) :
    Unwrapped a b n (ofSteps (exactDot a b n / 2 ^ F)) := by
  have within : Contained a b n := contained_of_gain h small
  have p := protocol_of_accepted (M := .exact) (rejection?_eq_none_iff.2 ⟨pos, ha, hb⟩)
  constructor
  · intro call made
    obtain ⟨j, inside, rfl⟩ := List.mem_iff_getElem.1 made
    have hj : j < n := p.count ▸ inside
    obtain ⟨exactly, held⟩ := getElem?_dotLogged_of_contained Mac.exact_exactInRange within
      (List.getElem?_eq_getElem inside)
    refine ⟨exactly, ?_⟩
    rw [held]
    exact abs_partialDot_le_of_gain small (by omega) (by omega)
  · obtain ⟨call, isLast, -, held⟩ := p.result_of_contained Mac.exact_exactInRange within pos
    refine ⟨call, isLast, held, ?_⟩
    rw [held]
    exact toInt_raw_ofSteps_eq_iff.2 word

theorem getD_mem_take {i : Nat} (hi : i < n) (hb : n ≤ b.length) : b.getD i 0 ∈ b.take n := by
  rw [List.getD_eq_getElem _ _ (by omega)]
  exact List.mem_take_iff_getElem.2 ⟨i, by omega, rfl⟩

/-- **Weights of one in all keep the range.** A mean is between the least and the greatest of its
values. Weights of any signs keep a bound on the magnitude of the values if their own magnitudes are
at most one together. Nothing wraps on the way. -/
theorem dot_of_unit_weights (h : Scalable F) (pos : 1 ≤ n) (ha : n ≤ a.length)
    (hb : n ≤ b.length) :
    ∃ r, dot a b n = .ok r ∧
      (Averaging a n → Unwrapped a b n r ∧
        ∃ lo hi, (b.take n).min? = some lo ∧ (b.take n).max? = some hi ∧ lo ≤ r ∧ r ≤ hi) ∧
      ∀ B : Int, B ≤ 2 ^ 31 - 1 → gain a n ≤ 2 ^ F → (∀ i < n, |wordAt b i| ≤ B) →
        Unwrapped a b n r ∧ |r.raw.toInt| ≤ B := by
  refine ⟨_, dot_eq_ofSteps h pos ha hb, ?_, ?_⟩
  · intro mean
    have nonempty : b.take n ≠ [] := List.ne_nil_of_mem (getD_mem_take pos hb)
    obtain ⟨lo, hi, least, greatest⟩ := exists_extremes nonempty
    have bounds : ∀ i < n, lo.raw.toInt ≤ wordAt b i ∧ wordAt b i ≤ hi.raw.toInt := by
      intro i inside
      have mem := getD_mem_take inside hb
      exact ⟨le_iff.1 ((List.min?_eq_some_iff.1 least).2 _ mem),
        le_iff.1 ((List.max?_eq_some_iff.1 greatest).2 _ mem)⟩
    obtain ⟨low, high⟩ := mean.floor_bounds bounds
    have word : -2 ^ 31 ≤ exactDot a b n / 2 ^ F ∧ exactDot a b n / 2 ^ F < 2 ^ 31 :=
      ⟨lo.raw.le_toInt.trans low, high.trans_lt hi.raw.toInt_lt⟩
    have exactly := toInt_raw_ofSteps_eq_iff (F := F).2 word
    refine ⟨unwrapped_of_gain h pos ha hb mean.gain_eq.le word, lo, hi, least, greatest, ?_, ?_⟩
    · rwa [le_iff, exactly]
    · rwa [le_iff, exactly]
  · intro B limit small bound
    have size := abs_floor_le small pos bound
    obtain ⟨low, high⟩ := abs_le.1 size
    have word : -2 ^ 31 ≤ exactDot a b n / 2 ^ F ∧ exactDot a b n / 2 ^ F < 2 ^ 31 :=
      ⟨by omega, by omega⟩
    refine ⟨unwrapped_of_gain h pos ha hb small word, ?_⟩
    rwa [toInt_raw_ofSteps_eq_iff.2 word]

/-- A mean of two least values, whose accumulator goes down to the bound, and a difference of two
greatest values with opposite signs. One more step of the weight wraps. -/
theorem dot_of_unit_weights_extreme :
    let half : Fixed 15 := ⟨2 ^ 14⟩
    let least : List (Fixed 15) := [minValue, minValue]
    let opposite : List (Fixed 15) := [maxValue, -maxValue]
    (Averaging [half, half] 2 ∧ ∃ r, dot [half, half] least 2 = .ok r ∧
      Unwrapped [half, half] least 2 r ∧ minValue ≤ r ∧ r ≤ minValue) ∧
    (∃ r, dot [-half, half] opposite 2 = .ok r ∧ Unwrapped [-half, half] opposite 2 r ∧
      |r.raw.toInt| ≤ 2 ^ 31 - 1 ∧ r = -maxValue) ∧
    dot [⟨-2 ^ 15 - 1⟩, zero] opposite 2 = .ok ⟨2147418113⟩ := by
  intro half least opposite
  have mean : Averaging [half, half] 2 := by
    constructor
    · decide
    · decide
  obtain ⟨r, result, between, -⟩ := dot_of_unit_weights (a := [half, half]) (b := least) (n := 2)
    (by decide) (by decide) (by decide) (by decide)
  obtain ⟨unwrapped, lo, hi, isLeast, isGreatest, low, high⟩ := between mean
  obtain rfl : minValue = lo := Option.some.inj (Eq.trans (by decide) isLeast)
  obtain rfl : minValue = hi := Option.some.inj (Eq.trans (by decide) isGreatest)
  obtain ⟨s, result', -, bounded⟩ := dot_of_unit_weights (a := [-half, half]) (b := opposite)
    (n := 2) (by decide) (by decide) (by decide) (by decide)
  obtain ⟨unwrapped', size⟩ := bounded (2 ^ 31 - 1) (by decide) (by decide) (by decide)
  have value : dot [-half, half] opposite 2 = .ok (-maxValue) := by decide
  refine ⟨⟨mean, r, result, unwrapped, low, high⟩, ⟨s, result', unwrapped', size, ?_⟩, by decide⟩
  exact Except.ok.inj (result'.symm.trans value)

end FixedPoint.Fixed
