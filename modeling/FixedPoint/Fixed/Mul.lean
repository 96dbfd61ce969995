import FixedPoint.Fixed.Narrow
import FixedPoint.Mac.Basic

namespace FixedPoint.Fixed

variable {F : Nat}

/-- A product over any way of getting a unit's answers. It has 64 bits and is narrowed once. -/
def mulVia {m : Type → Type} [Monad m] (ask : Mac.Request → m Int64) (x y : Fixed F) :
    m (Fixed F) := do
  return narrow (← ask (.mul x.raw y.raw))

/-- The product on the unit `M`. -/
def mulWith (M : Mac) (x y : Fixed F) : Fixed F :=
  Id.run (mulVia (fun r => return M.answer r) x y)

/-- The product on the unit `M`, with the calls made to the unit. -/
def mulLogged (M : Mac) (x y : Fixed F) : Fixed F × List Mac.Call :=
  mulVia M.answerLogged x y []

protected def mul (x y : Fixed F) : Fixed F := mulWith .exact x y

instance : Mul (Fixed F) := ⟨Fixed.mul⟩

theorem mulWith_eq (M : Mac) (x y : Fixed F) : mulWith M x y = narrow (M.mul x.raw y.raw) := rfl

theorem mul_eq (x y : Fixed F) : x * y = narrow (Mac.exact.mul x.raw y.raw) := rfl

protected theorem mul_comm (x y : Fixed F) : x * y = y * x := by
  simp only [mul_eq, Mac.exact, Int64.mul_comm]

end FixedPoint.Fixed
