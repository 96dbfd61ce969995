import FixedPoint.Fixed.Basic

namespace FixedPoint.Serial.Binary

variable {F : Nat}

/-- The lowest digits of a number in base 256, the lowest first. -/
def digits : Nat → Nat → List UInt8
  | 0, _ => []
  | count + 1, n => UInt8.ofNat n :: digits count (n / 256)

/-- The word as four digits in base 256 of its unsigned reading. -/
def write (x : Fixed F) : List UInt8 := digits 4 x.raw.toUInt32.toNat

/-- The elements one behind another, with no length in front. -/
def writeMany (values : List (Fixed F)) : List UInt8 := values.flatMap write

/-- The first value and the bytes behind it. -/
def read? : List UInt8 → Option (Fixed F × List UInt8)
  | b₀ :: b₁ :: b₂ :: b₃ :: rest =>
    some (⟨Int32.ofNat (b₀.toNat + 256 * (b₁.toNat + 256 * (b₂.toNat + 256 * b₃.toNat)))⟩, rest)
  | _ => none

end FixedPoint.Serial.Binary
