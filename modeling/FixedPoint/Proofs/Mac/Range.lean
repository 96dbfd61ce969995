import FixedPoint.Mac.Variants
import FixedPoint.Proofs.Mac.Precision

namespace FixedPoint.Mac

variable {M : Mac}

/-- An integer of 64 bits. -/
def Fits (z : Int) : Prop := -2 ^ 63 ≤ z ∧ z < 2 ^ 63

instance (z : Int) : Decidable (Fits z) := inferInstanceAs (Decidable (_ ∧ _))

/-- Products are exact, and so are sums that fit. The answer to another sum is free. -/
structure ExactInRange (M : Mac) : Prop where
  mul : ∀ a b, (M.mul a b).toInt = a.toInt * b.toInt
  mulAdd : ∀ acc a b, Fits (acc.toInt + a.toInt * b.toInt) →
    (M.mulAdd acc a b).toInt = acc.toInt + a.toInt * b.toInt

/-- What a request asks for, without bound. -/
def Request.value : Request → Int
  | .mul a b => a.toInt * b.toInt
  | .mulAdd acc a b => acc.toInt + a.toInt * b.toInt

/-- The call gave the integer that it was asked for. -/
def Call.Exact (c : Call) : Prop := c.result.toInt = c.request.value

theorem Faithful.exactInRange (h : M.Faithful) : M.ExactInRange := by
  refine ⟨h.mul, ?_⟩
  intro acc a b ⟨low, high⟩
  rw [h.mulAdd]
  exact Int.bmod_eq_of_le (by omega) (by omega)

theorem exact_exactInRange : exact.ExactInRange := exact_faithful.exactInRange

theorem saturating_exactInRange : saturating.ExactInRange := by
  refine ⟨toInt_exact_mul, ?_⟩
  intro acc a b ⟨low, high⟩
  exact Int64.toInt_ofIntClamp low (Int.le_of_lt_add_one high)

end FixedPoint.Mac
