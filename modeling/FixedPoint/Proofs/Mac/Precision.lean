import FixedPoint.Mac.Lemmas
import FixedPoint.Mac.Sum
import FixedPoint.Proofs.Residue

/-!
# Units that are exact in their low bits

The low bits of a sum depend on the low bits of its terms alone. So a unit that gets the lowest bits
of every step right gets as many bits of the whole sum right, whatever its other bits do on the way
and however often the accumulator wraps.
-/

namespace FixedPoint.Mac

variable {M : Mac} {bits : Nat}

/-- The lowest bits of every answer are those of the exact integer. The others are free. -/
structure ExactBelow (M : Mac) (bits : Nat) : Prop where
  mul : ∀ a b, (M.mul a b).toInt ≡ a.toInt * b.toInt [ZMOD 2 ^ bits]
  mulAdd : ∀ acc a b,
    (M.mulAdd acc a b).toInt ≡ acc.toInt + a.toInt * b.toInt [ZMOD 2 ^ bits]

/-- What a unit has to do: products are exact, and only a sum that leaves 64 bits wraps. -/
structure Faithful (M : Mac) : Prop where
  mul : ∀ a b, (M.mul a b).toInt = a.toInt * b.toInt
  mulAdd : ∀ acc a b, (M.mulAdd acc a b).toInt = (acc.toInt + a.toInt * b.toInt).bmod (2 ^ 64)

/-- A unit whose register holds the lowest bits of every result as a signed number. -/
def lowBits (bits : Nat) : Mac where
  mul a b := Int64.ofInt ((a.toInt * b.toInt).bmod (2 ^ bits))
  mulAdd acc a b := Int64.ofInt ((acc.toInt + a.toInt * b.toInt).bmod (2 ^ bits))

theorem exact_faithful : exact.Faithful := ⟨toInt_exact_mul, toInt_exact_mulAdd⟩

theorem Faithful.exactBelow (h : M.Faithful) (le : bits ≤ 64) : M.ExactBelow bits := by
  constructor
  · intro a b
    rw [h.mul a b]
  · intro acc a b
    rw [h.mulAdd acc a b]
    exact Residue.bmod_modEq_of_le _ le

theorem lowBits_exactBelow (le : bits ≤ 64) : (lowBits bits).ExactBelow bits := by
  have stored (z : Int) : (Int64.ofInt (z.bmod (2 ^ bits))).toInt ≡ z [ZMOD 2 ^ bits] := by
    rw [Int64.toInt_ofInt]
    exact (Residue.bmod_modEq_of_le _ le).trans (Residue.bmod_modEq z bits)
  constructor
  · intro a b
    exact stored (a.toInt * b.toInt)
  · intro acc a b
    exact stored (acc.toInt + a.toInt * b.toInt)

/-- Adding further products keeps the low bits of an accumulator exact. -/
theorem ExactBelow.foldr_modEq (h : M.ExactBelow bits) (rest : List (Int32 × Int32))
    {acc : Int64} {z : Int} (start : acc.toInt ≡ z [ZMOD 2 ^ bits]) :
    (rest.foldr (fun p acc => M.mulAdd acc p.1 p.2) acc).toInt ≡
      z + exactSum rest [ZMOD 2 ^ bits] := by
  induction rest with
  | nil => simpa only [List.foldr_nil, exactSum, add_zero] using start
  | cons p rest ih =>
    have step := h.mulAdd (rest.foldr (fun p acc => M.mulAdd acc p.1 p.2) acc) p.1 p.2
    refine step.trans ?_
    have order : z + exactSum (p :: rest) = z + exactSum rest + p.1.toInt * p.2.toInt := by
      simp only [exactSum]
      omega
    rw [order]
    exact ih.add_right _

theorem ExactBelow.sum_modEq (h : M.ExactBelow bits) (pairs : List (Int32 × Int32)) :
    (M.sum pairs).toInt ≡ exactSum pairs [ZMOD 2 ^ bits] := by
  cases pairs with
  | nil => rfl
  | cons p rest =>
    rw [sum_cons]
    exact h.foldr_modEq rest (h.mul p.1 p.2)

end FixedPoint.Mac
