import FixedPoint.Fixed.Basic

namespace FixedPoint.Serial.Json

variable {F : Nat}

/-- White space between the tokens of a document. -/
def isBlank (c : Char) : Bool := c == ' ' || c == '\t' || c == '\n' || c == '\r'

/-- The text without the blanks at both ends. -/
def strip (cs : List Char) : List Char :=
  ((cs.dropWhile isBlank).reverse.dropWhile isBlank).reverse

/-- The word that an integer denotes, if it is in range. -/
def word? (z : Int) : Option Int32 :=
  if Int32.minValue.toInt ≤ z ∧ z ≤ Int32.maxValue.toInt then some (Int32.ofInt z) else none

/-- The value that a whole document denotes: one numeral in the range of a word, with blanks around
it. So `-0` is refused, which is no integer in JSON. -/
def read? (document : String) : Option (Fixed F) := do
  let z ← Numeral.int? (strip document.toList)
  let w ← word? z
  return ⟨w⟩

/-- The document of one value. -/
def write (x : Fixed F) : String := Numeral.text x.raw.toInt

/-- The document of a list: the elements between brackets, with commas and no blanks. -/
def writeMany (values : List (Fixed F)) : String :=
  "[" ++ ",".intercalate (values.map write) ++ "]"

end FixedPoint.Serial.Json
