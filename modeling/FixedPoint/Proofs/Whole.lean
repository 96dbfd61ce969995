import FixedPoint.Proofs.Steps

/-!
# Whole numbers

A whole number is an integer in the high bits of a word, with `F` zeros below it. There is room for
`32 - F` bits of the integer. Those above are lost, so whole numbers are integers modulo
`2 ^ (32 - F)`, and sums and products of them are those of the integers. No product with a whole
number is ever rounded.
-/

namespace FixedPoint.Fixed

variable {F : Nat}

/-- The whole number `z`, without the bits for which there is no room. -/
def ofWhole : Int →+ Fixed F := ofSteps.comp (AddMonoidHom.mulLeft (2 ^ F))

theorem ofWhole_eq_ofSteps (z : Int) : (ofWhole z : Fixed F) = ofSteps (2 ^ F * z) := rfl

theorem ofWhole_congr (h : Storable F) {y z : Int} (low : y ≡ z [ZMOD 2 ^ (32 - F)]) :
    (ofWhole y : Fixed F) = ofWhole z := by
  have scaled := low.mul_left' (c := 2 ^ F)
  rw [← pow_add, Nat.add_sub_of_le (by omega)] at scaled
  exact ofSteps_congr scaled

theorem ofInt_eq_ofWhole (h : Storable F) (i : Int32) : (ofInt i : Fixed F) = ofWhole i.toInt := by
  rw [← toInt_raw_inj, toInt_raw_ofInt h, ofWhole_eq_ofSteps, toInt_raw_ofSteps, mul_comm]

/-- It does not matter whether the integer is wrapped to a word on the way. -/
theorem ofInt_ofInt (h : Storable F) (z : Int) : (ofInt (Int32.ofInt z) : Fixed F) = ofWhole z := by
  rw [ofInt_eq_ofWhole h, Int32.toInt_ofInt]
  exact ofWhole_congr h (Residue.bmod_modEq_of_le z (k := 32) (Nat.sub_le 32 F))

theorem toInt_raw_ofInt_modEq (h : Storable F) (i : Int32) :
    (ofInt i : Fixed F).raw.toInt ≡ 2 ^ F * i.toInt [ZMOD 2 ^ 32] := by
  rw [ofInt_eq_ofWhole h]
  exact toInt_raw_ofSteps_modEq _

theorem toInt_floor_ofInt_modEq (h : Storable F) (i : Int32) :
    (ofInt i : Fixed F).floor.toInt ≡ i.toInt [ZMOD 2 ^ (32 - F)] := by
  have word := toInt_raw_ofInt_modEq h i
  rw [← Nat.add_sub_of_le (show F ≤ 32 by omega)] at word
  have floors := Residue.ediv_modEq word
  rwa [← toInt_floor h, Int.mul_ediv_cancel_left _ (by positivity)] at floors

/-- The fraction bits of a whole number are zero. -/
theorem toInt_raw_ofInt_eq_mul_floor (h : Storable F) (i : Int32) :
    (ofInt i : Fixed F).raw.toInt = 2 ^ F * (ofInt i : Fixed F).floor.toInt := by
  have low := (toInt_raw_ofInt_modEq h i).of_dvd (pow_dvd_pow 2 (show F ≤ 32 by omega))
  have multiple : 2 ^ F * i.toInt ≡ 0 [ZMOD 2 ^ F] := Int.modEq_zero_iff_dvd.2 (dvd_mul_right _ _)
  have divides := Int.modEq_zero_iff_dvd.1 (low.trans multiple)
  rw [toInt_floor h, Int.mul_ediv_cancel' divides]

theorem frac_ofInt (h : Maskable F) (i : Int32) : (ofInt i : Fixed F).frac = 0 := by
  rw [← Int32.toInt_inj, toInt_frac h, toInt_raw_ofInt_eq_mul_floor (by omega),
    Int.mul_emod_right, Int32.toInt_zero]

/-- A format keeps all bits of the integer `z`. -/
def HasRoom (F : Nat) (z : Int) : Prop := -2 ^ (31 - F) ≤ z ∧ z < 2 ^ (31 - F)

instance (F : Nat) (z : Int) : Decidable (HasRoom F z) := inferInstanceAs (Decidable (_ ∧ _))

theorem toInt_raw_ofInt_of_hasRoom (h : Storable F) {i : Int32} (room : HasRoom F i.toInt) :
    (ofInt i : Fixed F).raw.toInt = 2 ^ F * i.toInt := by
  have word : (2 : Int) ^ F * 2 ^ (31 - F) = 2 ^ 31 := by rw [← pow_add, Nat.add_sub_of_le h]
  have pos : (0 : Int) < 2 ^ F := by positivity
  rw [ofInt_eq_ofWhole h, ofWhole_eq_ofSteps, toInt_raw_ofSteps_eq_iff, ← word, ← mul_neg]
  exact ⟨mul_le_mul_of_nonneg_left room.1 pos.le, mul_lt_mul_of_pos_left room.2 pos⟩

theorem toInt_raw_one (h : Scalable F) : (one : Fixed F).raw.toInt = 2 ^ F := by
  have room : HasRoom F (1 : Int32).toInt := by
    have wide : (2 : Int) ^ 2 ≤ 2 ^ (31 - F) := pow_le_pow_right₀ (by decide) (by omega)
    simp only [HasRoom, Int32.toInt_one]
    omega
  exact (toInt_raw_ofInt_of_hasRoom (by omega) room).trans (mul_one _)

/-- The product of what is left of two integers is what is left of their product. -/
theorem ofWhole_floor_mul_floor (h : Storable F) (i j : Int32) :
    (ofWhole ((ofInt i : Fixed F).floor.toInt * (ofInt j : Fixed F).floor.toInt) : Fixed F) =
      ofWhole (i.toInt * j.toInt) :=
  ofWhole_congr h ((toInt_floor_ofInt_modEq h i).mul (toInt_floor_ofInt_modEq h j))

/-- A factor without a fraction counts how often the other factor is taken, without rounding. -/
theorem mul_of_frac_eq_zero (h : Scalable F) (x : Fixed F) {y : Fixed F} (whole : y.frac = 0) :
    x * y = ofSteps (x.raw.toInt * y.floor.toInt) := by
  rw [mul_eq_ofSteps h, toInt_raw_eq_floor_add_frac (by omega) y, whole, Int32.toInt_zero,
    add_zero, ← mul_assoc, Int.mul_ediv_cancel _ (by positivity)]

theorem mul_ofInt (h : Scalable F) (x : Fixed F) (j : Int32) :
    x * ofInt j = ofSteps (x.raw.toInt * (ofInt j : Fixed F).floor.toInt) :=
  mul_of_frac_eq_zero h x (frac_ofInt (by omega) j)

theorem ofInt_add (h : Storable F) (i j : Int32) :
    (ofInt (i + j) : Fixed F) = ofInt i + ofInt j := by
  have word : i + j = Int32.ofInt (i.toInt + j.toInt) := by
    rw [Int32.ofInt_add, Int32.ofInt_toInt, Int32.ofInt_toInt]
  rw [word, ofInt_ofInt h, map_add, ofInt_eq_ofWhole h, ofInt_eq_ofWhole h]

theorem ofInt_neg (h : Storable F) (i : Int32) : (ofInt (-i) : Fixed F) = -ofInt i := by
  have word : -i = Int32.ofInt (-i.toInt) := by rw [Int32.ofInt_neg, Int32.ofInt_toInt]
  rw [word, ofInt_ofInt h, map_neg, ofInt_eq_ofWhole h]

theorem ofInt_sub (h : Storable F) (i j : Int32) :
    (ofInt (i - j) : Fixed F) = ofInt i - ofInt j := by
  rw [Int32.sub_eq_add_neg, ofInt_add h, ofInt_neg h, sub_eq_add_neg]

theorem ofInt_mul (h : Scalable F) (i j : Int32) :
    (ofInt (i * j) : Fixed F) = ofInt i * ofInt j := by
  have storable : Storable F := by omega
  have word : i * j = Int32.ofInt (i.toInt * j.toInt) := by
    rw [Int32.ofInt_mul, Int32.ofInt_toInt, Int32.ofInt_toInt]
  rw [mul_ofInt h, toInt_raw_ofInt_eq_mul_floor storable, mul_assoc, ← ofWhole_eq_ofSteps,
    ofWhole_floor_mul_floor storable, word, ofInt_ofInt storable]

end FixedPoint.Fixed
