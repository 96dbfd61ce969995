import FixedPoint.Error

namespace FixedPoint

/-- An entry of the event log. The error is given by its message. -/
structure Event where
  level : String
  message : String
  lenA : Nat
  lenB : Nat
  order : Nat
  error : String
  deriving DecidableEq, Repr

/-- A dot product of lists of these lengths is refused. -/
def Event.dotRejected (lenA lenB order : Nat) (e : Error) : Event where
  level := "DEBUG"
  message := "rejected dot product"
  lenA := lenA
  lenB := lenB
  order := order
  error := e.message

end FixedPoint
