import FixedPoint.Numeral

namespace FixedPoint

/-- The operand of a dot product. -/
inductive Operand where
  | lhs
  | rhs
  deriving DecidableEq, Repr

/-- Why a request is refused. Arithmetic never fails: what does not fit wraps. Sizes count elements
of the list or buffer at fault. -/
inductive Error where
  | emptyInput
  | lengthTooShort (operand : Operand) (len order : Nat)
  | bufferTooSmall (needed available : Nat)
  | unalignedLength (len : Nat)
  deriving DecidableEq, Repr

/-- The name of an operand inside a message. -/
def Operand.name : Operand → String
  | .lhs => "lhs"
  | .rhs => "rhs"

/-- The text for a reader. -/
def Error.message : Error → String
  | .emptyInput => "dot product order must be at least 1"
  | .lengthTooShort operand len order =>
      operand.name ++ " has " ++ Numeral.text len ++ " elements, dot product order is " ++
        Numeral.text order
  | .bufferTooSmall needed available =>
      "buffer too small: need " ++ Numeral.text needed ++ ", have " ++ Numeral.text available
  | .unalignedLength len =>
      "byte length " ++ Numeral.text len ++ " is not a multiple of the word size"

/-- The constructor name of an operand, as `Error.debugText` shows it. -/
def Operand.label : Operand → String
  | .lhs => "Lhs"
  | .rhs => "Rhs"

/-- The text for a developer: the cause with its fields by name. -/
def Error.debugText : Error → String
  | .emptyInput => "EmptyInput"
  | .lengthTooShort operand len order =>
      "LengthTooShort \x7b operand: " ++ operand.label ++ ", len: " ++ Numeral.text len ++
        ", order: " ++ Numeral.text order ++ " \x7d"
  | .bufferTooSmall needed available =>
      "BufferTooSmall \x7b needed: " ++ Numeral.text needed ++ ", available: " ++
        Numeral.text available ++ " \x7d"
  | .unalignedLength len => "UnalignedLength(" ++ Numeral.text len ++ ")"

end FixedPoint
