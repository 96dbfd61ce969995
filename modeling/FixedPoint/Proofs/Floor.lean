import FixedPoint.Proofs.Parts

namespace FixedPoint.Fixed

variable {F : Nat}

/-- An integer in the range of whole parts is named by the bits that are kept of it. -/
theorem eq_toInt_floor_ofInt_iff (h : Storable F) {i : Int32} {z : Int} :
    z = (ofInt i : Fixed F).floor.toInt ↔ HasRoom F z ∧ z ≡ i.toInt [ZMOD 2 ^ (32 - F)] := by
  have kept := toInt_floor_ofInt_modEq h i
  have room := hasRoom_floor h (ofInt i)
  constructor
  · rintro rfl
    exact ⟨room, kept⟩
  · rintro ⟨roomZ, same⟩
    exact roomZ.eq_of_modEq h room (same.trans kept.symm)

theorem floor_ofInt_eq_iff (h : Storable F) {i : Int32} :
    (ofInt i : Fixed F).floor = i ↔ HasRoom F i.toInt := by
  rw [← Int32.toInt_inj, eq_comm, eq_toInt_floor_ofInt_iff h, and_iff_left (Int.ModEq.refl _)]

theorem ofInt_eq_ofInt_iff (h : Storable F) {i j : Int32} :
    (ofInt i : Fixed F) = ofInt j ↔ i.toInt ≡ j.toInt [ZMOD 2 ^ (32 - F)] := by
  constructor
  · intro same
    have kept := toInt_floor_ofInt_modEq h i
    rw [same] at kept
    exact kept.symm.trans (toInt_floor_ofInt_modEq h j)
  · intro low
    rw [ofInt_eq_ofWhole h, ofInt_eq_ofWhole h, ofWhole_congr h low]

theorem ofInt_floor_of_frac_eq_zero (h : Maskable F) {x : Fixed F} (whole : x.frac = 0) :
    ofInt x.floor = x := by
  have word := toInt_raw_eq_floor_add_frac h x
  rw [whole, Int32.toInt_zero, add_zero, mul_comm] at word
  rw [← toInt_raw_inj, word]
  exact toInt_raw_ofInt_of_hasRoom (by omega) (hasRoom_floor (by omega) x)

theorem ofInt_le_iff_le_floor (h : Storable F) {i : Int32} (room : HasRoom F i.toInt)
    (x : Fixed F) : ofInt i ≤ x ↔ i ≤ x.floor := by
  rw [le_iff, toInt_raw_ofInt_of_hasRoom h room, Int32.le_iff_toInt_le, toInt_floor h,
    Int.le_ediv_iff_mul_le (by positivity), mul_comm]

/-- **Whole numbers are the values without a fraction, as far below a value as its floor.** What is
lost of an integer is a multiple of `2 ^ (32 - F)`, nothing else. -/
theorem ofInt_adjoint_floor (h : Scalable F) :
    (∀ i : Int32,
      (∀ z : Int, z = (ofInt i : Fixed F).floor.toInt ↔
        HasRoom F z ∧ z ≡ i.toInt [ZMOD 2 ^ (32 - F)]) ∧
      ((ofInt i : Fixed F).floor = i ↔ HasRoom F i.toInt) ∧ (ofInt i : Fixed F).frac = 0) ∧
    (∀ i j : Int32, (ofInt i : Fixed F) = ofInt j ↔ i.toInt ≡ j.toInt [ZMOD 2 ^ (32 - F)]) ∧
    (∀ x : Fixed F, x.frac = 0 → ofInt x.floor = x) ∧
    ∀ i : Int32, HasRoom F i.toInt → ∀ x : Fixed F, ofInt i ≤ x ↔ i ≤ x.floor := by
  have storable : Storable F := by omega
  have maskable : Maskable F := by omega
  refine ⟨fun i => ⟨?_, ?_, frac_ofInt maskable i⟩, ?_, ?_, ?_⟩
  · exact fun z => eq_toInt_floor_ofInt_iff storable
  · exact floor_ofInt_eq_iff storable
  · exact fun i j => ofInt_eq_ofInt_iff storable
  · exact fun x whole => ofInt_floor_of_frac_eq_zero maskable whole
  · exact fun i room x => ofInt_le_iff_le_floor storable room x

/-- One more than the greatest integer with room is taken for the least, by which the sign flips. -/
theorem ofInt_adjoint_floor_flipped :
    let x : Fixed 15 := ⟨-2147483643⟩
    (ofInt 65536 : Fixed 15).floor.toInt = -65536 ∧ (ofInt 65536 : Fixed 15) = ofInt (-65536) ∧
      ofInt (minValue : Fixed 15).floor = (minValue : Fixed 15) ∧ ofInt (-65536) ≤ x ∧
      ¬ofInt (-65535) ≤ x := by
  intro x
  obtain ⟨kept, same, whole, adjoint⟩ := ofInt_adjoint_floor (F := 15) (by decide)
  refine ⟨((kept 65536).1 (-65536) |>.2 ⟨by decide, by decide⟩).symm,
    (same 65536 (-65536)).2 (by decide), whole minValue (by decide),
    (adjoint (-65536) (by decide) x).2 (by decide), ?_⟩
  rw [adjoint (-65535) (by decide) x]
  decide

end FixedPoint.Fixed
