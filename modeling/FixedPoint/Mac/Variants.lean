import FixedPoint.Mac.Basic

namespace FixedPoint.Mac

/-- Multiplies and adds without bound, then wraps. -/
def unbounded : Mac where
  mul a b := Int64.ofInt (a.toInt * b.toInt)
  mulAdd acc a b := Int64.ofInt (acc.toInt + a.toInt * b.toInt)

/-- Doubles every product. The high bit of the largest one is lost. -/
def doubling : Mac where
  mul a b := (a.toInt64 * b.toInt64) <<< 1
  mulAdd acc a b := acc + (a.toInt64 * b.toInt64) <<< 1

/-- An accumulator that stops at the ends of its range. -/
def saturating : Mac where
  mul a b := a.toInt64 * b.toInt64
  mulAdd acc a b := Int64.ofIntClamp (acc.toInt + a.toInt * b.toInt)

/-- Adds the left word to every product and triples the accumulator at every step, so that the
order of the words and the order of the steps both show. -/
def skewed : Mac where
  mul a b := a.toInt64 * b.toInt64 + a.toInt64
  mulAdd acc a b := acc * 3 + (a.toInt64 * b.toInt64 + a.toInt64)

end FixedPoint.Mac
