import FixedPoint.Event
import FixedPoint.Fixed.Narrow
import FixedPoint.Mac.Sum

/-!
# Dot products

The dot product of order `n` uses the first `n` elements of both lists. All products are gathered
in one accumulator and the sum is narrowed once, so there is one rounding, not one per term.

The same computation is read in three ways: for its value, for the calls that it makes to the unit,
and for the events that it reports.
-/

namespace FixedPoint.Fixed

variable {F : Nat}

/-- Why a dot product of order `n` is refused for lists of these lengths. The order is judged
first, then the left list. -/
def rejection? (lenA lenB n : Nat) : Option Error :=
  if n = 0 then some .emptyInput
  else if lenA < n then some (.lengthTooShort .lhs lenA n)
  else if lenB < n then some (.lengthTooShort .rhs lenB n)
  else none

/-- The words that a dot product of order `n` multiplies. -/
def factors (a b : List (Fixed F)) (n : Nat) : List (Int32 × Int32) :=
  ((a.zip b).take n).map fun (x, y) => (x.raw, y.raw)

/-- The dot product over any way of getting a unit's answers and of reporting events. -/
def dotVia {m : Type → Type} [Monad m] (ask : Mac.Request → m Int64) (report : Event → m Unit)
    (a b : List (Fixed F)) (n : Nat) : m (Except Error (Fixed F)) := do
  match rejection? a.length b.length n with
  | some e =>
    report (.dotRejected a.length b.length n e)
    return .error e
  | none => return .ok (narrow (← Mac.sumVia ask (factors a b n)))

/-- The dot product on the unit `M`. -/
def dotWith (M : Mac) (a b : List (Fixed F)) (n : Nat) : Except Error (Fixed F) :=
  Id.run (dotVia (fun r => return M.answer r) (fun _ => return) a b n)

def dot (a b : List (Fixed F)) (n : Nat) : Except Error (Fixed F) := dotWith .exact a b n

/-- The dot product on the unit `M`, with the calls made to the unit. -/
def dotLogged (M : Mac) (a b : List (Fixed F)) (n : Nat) :
    Except Error (Fixed F) × List Mac.Call :=
  dotVia M.answerLogged (fun _ => return) a b n []

/-- The dot product on the unit `M`, with the events reported on the way. -/
def dotReported (M : Mac) (a b : List (Fixed F)) (n : Nat) :
    Except Error (Fixed F) × List Event :=
  dotVia (m := StateM (List Event)) (fun r => return M.answer r) (fun e => modify (· ++ [e]))
    a b n []

theorem dotWith_of_rejection {M : Mac} {a b : List (Fixed F)} {n : Nat} {e : Error}
    (h : rejection? a.length b.length n = some e) : dotWith M a b n = .error e := by
  simp only [dotWith, dotVia, h]
  rfl

theorem dotWith_of_accepted {M : Mac} {a b : List (Fixed F)} {n : Nat}
    (h : rejection? a.length b.length n = none) :
    dotWith M a b n = .ok (narrow (M.sum (factors a b n))) := by
  simp only [dotWith, dotVia, h]
  rfl

/-- A dot product fails exactly if it is refused. -/
theorem dotWith_eq_error_iff {M : Mac} {a b : List (Fixed F)} {n : Nat} {e : Error} :
    dotWith M a b n = .error e ↔ rejection? a.length b.length n = some e := by
  cases judged : rejection? a.length b.length n with
  | none => simp [dotWith_of_accepted judged]
  | some e' => simp [dotWith_of_rejection judged]

theorem dotWith_eq_ok_iff {M : Mac} {a b : List (Fixed F)} {n : Nat} {r : Fixed F} :
    dotWith M a b n = .ok r ↔
      rejection? a.length b.length n = none ∧ narrow (M.sum (factors a b n)) = r := by
  cases judged : rejection? a.length b.length n with
  | none => simp [dotWith_of_accepted judged]
  | some e => simp [dotWith_of_rejection judged]

/-- Two dot products agree if they are judged alike and, once accepted, narrow to the same value. -/
theorem dotWith_congr {M M' : Mac} {a b a' b' : List (Fixed F)} {n : Nat}
    (judged : rejection? a.length b.length n = rejection? a'.length b'.length n)
    (same : rejection? a'.length b'.length n = none →
      (narrow (M.sum (factors a b n)) : Fixed F) = narrow (M'.sum (factors a' b' n))) :
    dotWith M a b n = dotWith M' a' b' n := by
  cases verdict : rejection? a'.length b'.length n with
  | none =>
    rw [dotWith_of_accepted (judged.trans verdict), dotWith_of_accepted verdict, same verdict]
  | some e => rw [dotWith_of_rejection (judged.trans verdict), dotWith_of_rejection verdict]

/-- These are all the reasons to refuse a dot product, each with the case in which it is given. -/
theorem rejection?_eq_some_iff {lenA lenB n : Nat} {e : Error} :
    rejection? lenA lenB n = some e ↔
      n = 0 ∧ e = .emptyInput ∨
      0 < n ∧ lenA < n ∧ e = .lengthTooShort .lhs lenA n ∨
      0 < n ∧ n ≤ lenA ∧ lenB < n ∧ e = .lengthTooShort .rhs lenB n := by
  grind [rejection?]

theorem rejection?_eq_none_iff {lenA lenB n : Nat} :
    rejection? lenA lenB n = none ↔ 1 ≤ n ∧ n ≤ lenA ∧ n ≤ lenB := by
  grind [rejection?]

theorem exists_dotWith_eq_ok_iff {M : Mac} {a b : List (Fixed F)} {n : Nat} :
    (∃ r, dotWith M a b n = .ok r) ↔ 1 ≤ n ∧ n ≤ a.length ∧ n ≤ b.length := by
  simp only [dotWith_eq_ok_iff, exists_and_left, exists_eq', and_true, rejection?_eq_none_iff]

/-- Whether there are more than `n` elements does not matter. -/
theorem rejection?_min (lenA lenB n : Nat) :
    rejection? (min n lenA) (min n lenB) n = rejection? lenA lenB n := by
  grind [rejection?]

theorem length_factors {a b : List (Fixed F)} {n : Nat} (ha : n ≤ a.length) (hb : n ≤ b.length) :
    (factors a b n).length = n := by
  rw [factors, List.length_map, List.length_take, List.length_zip]
  omega

theorem factors_take (a b : List (Fixed F)) (n : Nat) :
    factors (a.take n) (b.take n) n = factors a b n := by
  simp only [factors, List.zip_eq_zipWith, List.take_zipWith, List.take_take, Nat.min_self]

theorem dotLogged_of_rejection {M : Mac} {a b : List (Fixed F)} {n : Nat} {e : Error}
    (h : rejection? a.length b.length n = some e) : dotLogged M a b n = (.error e, []) := by
  simp only [dotLogged, dotVia, h]
  rfl

theorem dotLogged_of_accepted {M : Mac} {a b : List (Fixed F)} {n : Nat}
    (h : rejection? a.length b.length n = none) :
    dotLogged M a b n =
      (.ok (narrow (M.sum (factors a b n))), (Mac.sumVia M.answerLogged (factors a b n) []).2) := by
  simp only [dotLogged, dotVia, h, ← Mac.fst_sumVia_answerLogged M (factors a b n) []]
  rfl

/-- Logging the calls of a dot product does not change it. -/
theorem fst_dotLogged (M : Mac) (a b : List (Fixed F)) (n : Nat) :
    (dotLogged M a b n).1 = dotWith M a b n := by
  cases h : rejection? a.length b.length n with
  | none => rw [dotLogged_of_accepted h, dotWith_of_accepted h]
  | some e => rw [dotLogged_of_rejection h, dotWith_of_rejection h]

theorem dotReported_of_rejection {M : Mac} {a b : List (Fixed F)} {n : Nat} {e : Error}
    (h : rejection? a.length b.length n = some e) :
    dotReported M a b n = (.error e, [.dotRejected a.length b.length n e]) := by
  simp only [dotReported, dotVia, h]
  rfl

theorem dotReported_of_accepted {M : Mac} {a b : List (Fixed F)} {n : Nat}
    (h : rejection? a.length b.length n = none) :
    dotReported M a b n = (.ok (narrow (M.sum (factors a b n))), []) := by
  simp only [dotReported, dotVia, h, Mac.sumVia_pure]
  rfl

/-- Reporting events does not change a dot product. -/
theorem fst_dotReported (M : Mac) (a b : List (Fixed F)) (n : Nat) :
    (dotReported M a b n).1 = dotWith M a b n := by
  cases h : rejection? a.length b.length n with
  | none => rw [dotReported_of_accepted h, dotWith_of_accepted h]
  | some e => rw [dotReported_of_rejection h, dotWith_of_rejection h]

/-- Elements from position `n` on are never looked at. -/
theorem dotLogged_take (M : Mac) (a b : List (Fixed F)) (n : Nat) :
    dotLogged M (a.take n) (b.take n) n = dotLogged M a b n := by
  simp only [dotLogged, dotVia, factors_take, List.length_take, rejection?_min]

end FixedPoint.Fixed
