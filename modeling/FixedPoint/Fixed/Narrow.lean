import FixedPoint.Fixed.Basic

namespace FixedPoint.Fixed

variable {F : Nat}

/-- The value of an accumulator with `2 F` fraction bits, rounded down and wrapped. -/
def narrow (acc : Int64) : Fixed F := ⟨(acc >>> Int64.ofNat F).toInt32⟩

end FixedPoint.Fixed
