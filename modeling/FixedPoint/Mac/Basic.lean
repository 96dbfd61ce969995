/-!
# Multiply-accumulate units

A unit multiplies two words into 64 bits and adds such a product to a 64-bit accumulator. All
products of the library go through a unit, so that an instruction of the target machine can do them.
The exact unit loses nothing of a product; its accumulator wraps.
-/

namespace FixedPoint

/-- A unit that multiplies words and accumulates their products. -/
structure Mac where
  mul : Int32 → Int32 → Int64
  mulAdd : Int64 → Int32 → Int32 → Int64

namespace Mac

/-- What a computation asks of a unit. -/
inductive Request where
  | mul (a b : Int32)
  | mulAdd (acc : Int64) (a b : Int32)
  deriving DecidableEq, Repr

/-- A request together with the unit's answer. -/
structure Call where
  request : Request
  result : Int64
  deriving DecidableEq, Repr

def answer (M : Mac) : Request → Int64
  | .mul a b => M.mul a b
  | .mulAdd acc a b => M.mulAdd acc a b

/-- Puts a request to a unit and appends the call to a log. -/
def answerLogged (M : Mac) (r : Request) : StateM (List Call) Int64 := do
  modify (· ++ [⟨r, M.answer r⟩])
  return M.answer r

/-- The product of two words always fits; the accumulator wraps. -/
def exact : Mac where
  mul a b := a.toInt64 * b.toInt64
  mulAdd acc a b := acc + a.toInt64 * b.toInt64

end Mac

end FixedPoint
