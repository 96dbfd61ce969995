import FixedPoint.Fixed.Order
import FixedPoint.Proofs.Whole
import Mathlib.Data.Prod.Lex
import Mathlib.Data.Set.Function

/-!
# Whole part and fraction

A value is its whole part and its fraction bits, one pair of numbers for each word. The fraction
counts upward from the whole part, also below zero. So the order of values is that of a dictionary,
and a sum carries from the fractions into the whole parts as decimal sums do.
-/

namespace FixedPoint.Fixed

variable {F : Nat} {x y : Fixed F}

/-- The whole part and the fraction bits. -/
def parts (x : Fixed F) : Int × Int := (x.floor.toInt, x.frac.toInt)

/-- The pairs of a whole part for which there is room and a fraction of fewer than `2 ^ F` steps. -/
def partRange (F : Nat) : Set (Int × Int) := {p | HasRoom F p.1 ∧ 0 ≤ p.2 ∧ p.2 < 2 ^ F}

/-- What the fractions of two values carry into the sum of their whole parts. -/
def fracCarry (x y : Fixed F) : Int := if 2 ^ F ≤ x.frac.toInt + y.frac.toInt then 1 else 0

/-- The floor of a number has room in a format exactly if the number is a word. -/
theorem hasRoom_ediv_iff (h : Storable F) {z : Int} :
    HasRoom F (z / 2 ^ F) ↔ -2 ^ 31 ≤ z ∧ z < 2 ^ 31 := by
  rw [HasRoom, Residue.ediv_bounds_iff, Nat.sub_add_cancel h]

theorem hasRoom_floor (h : Storable F) (x : Fixed F) : HasRoom F x.floor.toInt := by
  rw [toInt_floor h, hasRoom_ediv_iff h]
  exact ⟨x.raw.le_toInt, x.raw.toInt_lt⟩

/-- The integers for which there is room are all different in the bits that are kept. -/
theorem HasRoom.eq_of_modEq (h : Storable F) {y z : Int} (hy : HasRoom F y) (hz : HasRoom F z)
    (same : y ≡ z [ZMOD 2 ^ (32 - F)]) : y = z := by
  have width : (2 : Int) ^ (32 - F) = 2 * 2 ^ (31 - F) := by
    rw [← pow_succ', ← Nat.sub_add_comm h]
  have near : |z - y| < 2 ^ (32 - F) := by
    obtain ⟨lowY, highY⟩ := hy
    obtain ⟨lowZ, highZ⟩ := hz
    rw [width]
    exact abs_lt.2 ⟨by omega, by omega⟩
  have apart := Int.eq_zero_of_abs_lt_dvd same.dvd near
  omega

theorem parts_eq (h : Maskable F) (x : Fixed F) :
    x.parts = (x.raw.toInt / 2 ^ F, x.raw.toInt % 2 ^ F) := by
  rw [parts, toInt_floor (by omega), toInt_frac h]

/-- A word is cut into a whole part and a fraction in one way only. -/
theorem parts_eq_iff (h : Maskable F) {w f : Int} (low : 0 ≤ f) (high : f < 2 ^ F) :
    x.parts = (w, f) ↔ x.raw.toInt = w * 2 ^ F + f := by
  have cut := Int.ediv_emod_unique (a := x.raw.toInt) (q := w) (r := f) (b := 2 ^ F) (by positivity)
  rw [parts_eq h, Prod.mk.injEq, cut, mul_comm w, add_comm f]
  constructor
  · rintro ⟨word, -, -⟩
    exact word.symm
  · intro word
    exact ⟨word.symm, low, high⟩

theorem parts_mapsTo (h : Maskable F) :
    Set.MapsTo (parts : Fixed F → Int × Int) Set.univ (partRange F) := by
  intro x _
  exact ⟨hasRoom_floor (by omega) x, frac_nonneg h x, frac_lt h x⟩

theorem parts_injective (h : Maskable F) : Function.Injective (parts : Fixed F → Int × Int) := by
  intro x y same
  rw [← toInt_raw_inj, toInt_raw_eq_floor_add_frac h y]
  exact (parts_eq_iff h (frac_nonneg h y) (frac_lt h y)).1 same

theorem parts_surjOn (h : Maskable F) :
    Set.SurjOn (parts : Fixed F → Int × Int) Set.univ (partRange F) := by
  rintro ⟨w, f⟩ ⟨room, low, high⟩
  have floor : (w * 2 ^ F + f) / 2 ^ F = w := by
    rw [add_comm, Int.add_mul_ediv_right _ _ (by positivity), Int.ediv_eq_zero_of_lt low high,
      zero_add]
  have word : -2 ^ 31 ≤ w * 2 ^ F + f ∧ w * 2 ^ F + f < 2 ^ 31 := by
    rw [← hasRoom_ediv_iff (F := F) (by omega), floor]
    exact room
  refine ⟨ofSteps (w * 2 ^ F + f), trivial, ?_⟩
  rw [parts_eq_iff h low high]
  exact toInt_raw_ofSteps_eq_iff.2 word

theorem lt_iff_parts (h : Maskable F) : x < y ↔ toLex x.parts < toLex y.parts := by
  rw [Prod.Lex.toLex_lt_toLex, parts_eq h, parts_eq h, lt_iff]
  exact Residue.lt_iff_ediv_emod (by positivity) _ _

theorem le_iff_parts (h : Maskable F) : x ≤ y ↔ toLex x.parts ≤ toLex y.parts := by
  rw [← not_lt, ← lt_iff_parts h, lt_iff, le_iff, not_lt]

theorem compare_eq_parts (h : Maskable F) (x y : Fixed F) :
    compare x y = compare (toLex x.parts) (toLex y.parts) := by
  have same : x = y ↔ toLex x.parts = toLex y.parts := (parts_injective h).eq_iff.symm
  have ordered : compare x y = compareOfLessAndEq x y := rfl
  rw [ordered, LinearOrder.compare_eq_compareOfLessAndEq]
  simp only [compareOfLessAndEq, lt_iff_parts h, same]

theorem toInt_raw_add_modEq (x y : Fixed F) :
    (x + y).raw.toInt ≡ x.raw.toInt + y.raw.toInt [ZMOD 2 ^ 32] := by
  rw [← ofSteps_eq_iff, map_add, ofSteps_toInt_raw, ofSteps_toInt_raw]

theorem toInt_frac_add (h : Maskable F) (x y : Fixed F) :
    (x + y).frac.toInt = (x.frac.toInt + y.frac.toInt) % 2 ^ F := by
  rw [toInt_frac h, toInt_frac h, toInt_frac h, ← Int.add_emod]
  exact (toInt_raw_add_modEq x y).of_dvd (pow_dvd_pow 2 (by omega))

/-- The whole part of a sum, up to the bits for which there is no room. -/
theorem toInt_floor_add_modEq (h : Maskable F) (x y : Fixed F) :
    (x + y).floor.toInt ≡ x.floor.toInt + y.floor.toInt + fracCarry x y [ZMOD 2 ^ (32 - F)] := by
  have storable : Storable F := by omega
  have word := toInt_raw_add_modEq x y
  rw [← Nat.add_sub_of_le (show F ≤ 32 by omega)] at word
  have floors := Residue.ediv_modEq word
  rw [Residue.add_ediv (by positivity)] at floors
  rw [toInt_floor storable, toInt_floor storable, toInt_floor storable, fracCarry, toInt_frac h,
    toInt_frac h]
  exact floors

/-- **A value is a whole part and a fraction.** Each pair of a whole part for which there is room
and a fraction stands for one value and gives its word. The order of values, whether it is asked for
by `≤`, by `<` or by `compare`, is the lexicographic order of the pairs. Sums are formed in each
part, the fractions carrying into the whole parts, and the whole part wraps. -/
theorem parts_represent_values (h : Maskable F) :
    (∀ x : Fixed F, x.raw.toInt = x.floor.toInt * 2 ^ F + x.frac.toInt) ∧
    Set.BijOn (parts : Fixed F → Int × Int) Set.univ (partRange F) ∧
    (∀ x y : Fixed F, (x ≤ y ↔ toLex x.parts ≤ toLex y.parts) ∧
      (x < y ↔ toLex x.parts < toLex y.parts) ∧
      compare x y = compare (toLex x.parts) (toLex y.parts)) ∧
    ∀ x y : Fixed F, (x + y).frac.toInt = (x.frac.toInt + y.frac.toInt) % 2 ^ F ∧
      ∀ z : Int, z = (x + y).floor.toInt ↔
        HasRoom F z ∧ z ≡ x.floor.toInt + y.floor.toInt + fracCarry x y [ZMOD 2 ^ (32 - F)] := by
  have storable : Storable F := by omega
  refine ⟨toInt_raw_eq_floor_add_frac h,
    ⟨parts_mapsTo h, (parts_injective h).injOn, parts_surjOn h⟩, ?_, ?_⟩
  · intro x y
    exact ⟨le_iff_parts h, lt_iff_parts h, compare_eq_parts h x y⟩
  · intro x y
    refine ⟨toInt_frac_add h x y, fun z => ⟨?_, ?_⟩⟩
    · rintro rfl
      exact ⟨hasRoom_floor storable _, toInt_floor_add_modEq h x y⟩
    · rintro ⟨room, residue⟩
      exact room.eq_of_modEq storable (hasRoom_floor storable _)
        (residue.trans (toInt_floor_add_modEq h x y).symm)

/-- With thirty fraction bits the whole part runs from minus two to one. The least value lies below
minus one step by its whole part alone, their sum wraps upward from minus three to one, and one step
more than minus one step carries to zero. With no fraction bit the whole part is the word. -/
theorem parts_represent_values_at_limits :
    let least : Fixed 30 := minValue
    let below : Fixed 30 := ⟨-1⟩
    (least.parts = (-2, 0) ∧ below.parts = (-1, 2 ^ 30 - 1) ∧ least < below ∧
      (least + below).floor.toInt = 1 ∧ (least + below).frac.toInt = 2 ^ 30 - 1 ∧
      (below + epsilon).floor.toInt = 0) ∧
    ∃ x : Fixed 0, x.parts = (-2 ^ 31, 0) := by
  intro least below
  obtain ⟨-, -, order, sum⟩ := parts_represent_values (F := 30) (by decide)
  obtain ⟨-, ⟨-, -, onto⟩, -⟩ := parts_represent_values (F := 0) (by decide)
  have wholes : toLex least.parts < toLex below.parts :=
    Prod.Lex.toLex_lt_toLex.2 (.inl (by decide))
  have wrapped := ((sum least below).2 1).2 ⟨by decide, by decide⟩
  have carried := ((sum below epsilon).2 0).2 ⟨by decide, by decide⟩
  have corner : ((-2 ^ 31, 0) : Int × Int) ∈ partRange 0 := ⟨by decide, by decide, by decide⟩
  obtain ⟨x, -, reached⟩ := onto corner
  exact ⟨⟨by decide, by decide, (order least below).2.1.2 wholes, wrapped.symm,
    (sum least below).1.trans (by decide), carried.symm⟩, x, reached⟩

end FixedPoint.Fixed
