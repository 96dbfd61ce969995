/-!
# Decimal numerals

Every integer has one numeral: a minus sign if it is negative, then its decimal digits with no zero
in front. Reading accepts these numerals and nothing else, so a plus sign, a leading zero and `-0`
are no numerals.
-/

namespace FixedPoint.Numeral

/-- The numeral of an integer. -/
def ofInt : Int → List Char
  | .ofNat n => Nat.toDigits 10 n
  | .negSucc n => '-' :: Nat.toDigits 10 (n + 1)

/-- The numeral of an integer as text. -/
def text (z : Int) : String := String.ofList (ofInt z)

/-- The natural number whose numeral is given. -/
def nat? : List Char → Option Nat
  | [] => none
  | ['0'] => some 0
  | c :: cs =>
    if c ≠ '0' ∧ (c :: cs).all Char.isDigit then some (Nat.ofDigitChars 10 (c :: cs) 0) else none

/-- The integer whose numeral is given. -/
def int? : List Char → Option Int
  | '-' :: cs =>
    match nat? cs with
    | some (n + 1) => some (.negSucc n)
    | _ => none
  | cs => (nat? cs).map Int.ofNat

end FixedPoint.Numeral
