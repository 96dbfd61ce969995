import FixedPoint.Numeral
import FixedPoint.Width

/-!
# Fixed-point values

A value of `Fixed F` is a signed 32-bit word read as a multiple of `2 ^ -F`. The width is part of
the type, so values of two formats are never mixed by accident. Sums, differences and negation wrap
in two's complement; nothing saturates.
-/

namespace FixedPoint

/-- The number `raw / 2 ^ F`. -/
@[ext] structure Fixed (F : Nat) where
  raw : Int32
  deriving DecidableEq, Repr

namespace Fixed

variable {F : Nat}

def zero : Fixed F := ⟨0⟩

/-- Meant for `Scalable F`, as is `two`. -/
def one : Fixed F := ⟨1 <<< Int32.ofNat F⟩

def two : Fixed F := ⟨2 <<< Int32.ofNat F⟩

/-- The smallest positive step. -/
def epsilon : Fixed F := ⟨1⟩

def minValue : Fixed F := ⟨Int32.minValue⟩

def maxValue : Fixed F := ⟨Int32.maxValue⟩

instance : Inhabited (Fixed F) := ⟨zero⟩

instance : Zero (Fixed F) := ⟨zero⟩

/-- The whole number `i`. High bits that do not fit are lost. -/
def ofInt (i : Int32) : Fixed F := ⟨i <<< Int32.ofNat F⟩

/-- The whole part, rounded toward negative infinity. -/
def floor (x : Fixed F) : Int32 := x.raw >>> Int32.ofNat F

/-- The fraction bits. They count upward from `floor`, also for negative values. -/
def frac (x : Fixed F) : Int32 := x.raw &&& ((1 <<< Int32.ofNat F) - 1)

protected def add (x y : Fixed F) : Fixed F := ⟨x.raw + y.raw⟩

protected def sub (x y : Fixed F) : Fixed F := ⟨x.raw - y.raw⟩

/-- Negation; the least value is its own negative. -/
protected def neg (x : Fixed F) : Fixed F := ⟨-x.raw⟩

instance : Add (Fixed F) := ⟨Fixed.add⟩

instance : Sub (Fixed F) := ⟨Fixed.sub⟩

instance : Neg (Fixed F) := ⟨Fixed.neg⟩

/-- The text for a developer. -/
def debugText (x : Fixed F) : String := "Fixed(" ++ Numeral.text x.raw.toInt ++ ")"

end Fixed

end FixedPoint
