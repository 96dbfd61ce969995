import FixedPoint.Fixed.Basic

namespace FixedPoint.Fixed

variable {F : Nat}

instance : LE (Fixed F) := ⟨fun x y => x.raw ≤ y.raw⟩

instance : LT (Fixed F) := ⟨fun x y => x.raw < y.raw⟩

instance (x y : Fixed F) : Decidable (x ≤ y) := inferInstanceAs (Decidable (x.raw ≤ y.raw))

instance (x y : Fixed F) : Decidable (x < y) := inferInstanceAs (Decidable (x.raw < y.raw))

instance : Ord (Fixed F) := ⟨fun x y => compareOfLessAndEq x y⟩

instance : Min (Fixed F) := minOfLe

instance : Max (Fixed F) := maxOfLe

/-- The values in ascending order. -/
def sort (l : List (Fixed F)) : List (Fixed F) := l.mergeSort (fun x y => decide (x ≤ y))

theorem le_iff {x y : Fixed F} : x ≤ y ↔ x.raw.toInt ≤ y.raw.toInt :=
  Int32.le_iff_toInt_le

theorem lt_iff {x y : Fixed F} : x < y ↔ x.raw.toInt < y.raw.toInt :=
  Int32.lt_iff_toInt_lt

instance : Std.IsLinearOrder (Fixed F) where
  le_refl _ := Int32.le_refl _
  le_trans _ _ _ := Int32.le_trans
  le_antisymm _ _ h h' := Fixed.ext (Int32.le_antisymm h h')
  le_total _ _ := Int32.le_total _ _

theorem max_eq_ite (x y : Fixed F) : max x y = if x ≤ y then y else x := rfl

instance : Std.LawfulOrderMax (Fixed F) where
  max_eq_or x y := by
    rw [max_eq_ite]
    split
    · exact .inr rfl
    · exact .inl rfl
  max_le_iff x y z := by
    rw [max_eq_ite]
    split
    · rename_i h
      exact ⟨fun hz => ⟨Int32.le_trans h hz, hz⟩, And.right⟩
    · rename_i h
      have below : y ≤ x := (Int32.le_total x.raw y.raw).resolve_left h
      exact ⟨fun hz => ⟨hz, Int32.le_trans below hz⟩, And.left⟩

/-- A list that is not empty has a least and a greatest value. -/
theorem exists_extremes {l : List (Fixed F)} (h : l ≠ []) :
    ∃ lo hi, l.min? = some lo ∧ l.max? = some hi := by
  obtain ⟨lo, least⟩ := Option.isSome_iff_exists.1 (List.isSome_min?_iff.2 h)
  obtain ⟨hi, greatest⟩ := Option.isSome_iff_exists.1 (List.isSome_max?_iff.2 h)
  exact ⟨lo, hi, least, greatest⟩

end FixedPoint.Fixed
