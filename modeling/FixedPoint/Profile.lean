import FixedPoint.Fixed.Basic

namespace FixedPoint

/-- A program works in one of two formats throughout: the kernels on the chip use fifteen fraction
bits, and the conversions on the host use nineteen. -/
inductive Profile where
  | q15
  | q19
  deriving DecidableEq, Repr

namespace Profile

def fracBits : Profile → Nat
  | .q15 => 15
  | .q19 => 19

/-- The number of steps in one. -/
def scale (p : Profile) : Int32 := 1 <<< Int32.ofNat p.fracBits

/-- The values of the profile's format. -/
abbrev Value (p : Profile) : Type := Fixed p.fracBits

end Profile

end FixedPoint
