import FixedPoint.Mac.Basic

/-!
# Sums of products

The first pair of a list starts the accumulator and the others are added from the last pair back to
the second. The order is part of the result for a unit whose steps do not commute.

A sum is a computation over any way of getting answers: `Mac.sum` takes a unit's answers, and the
same computation over `Mac.answerLogged` also tells which calls were made.
-/

namespace FixedPoint.Mac

/-- The accumulator after all pairs. Nothing is asked for an empty list. -/
def sumVia {m : Type → Type} [Monad m] (ask : Request → m Int64) :
    List (Int32 × Int32) → m Int64
  | [] => return 0
  | (a, b) :: rest => do
    rest.foldrM (fun (c, d) acc => ask (.mulAdd acc c d)) (← ask (.mul a b))

def sum (M : Mac) (pairs : List (Int32 × Int32)) : Int64 :=
  Id.run (sumVia (fun r => return M.answer r) pairs)

/-- The sum of the products in integers, without bound. -/
def exactSum : List (Int32 × Int32) → Int
  | [] => 0
  | (a, b) :: rest => a.toInt * b.toInt + exactSum rest

theorem sum_cons (M : Mac) (a b : Int32) (rest : List (Int32 × Int32)) :
    M.sum ((a, b) :: rest) =
      rest.foldr (fun p acc => M.mulAdd acc p.1 p.2) (M.mul a b) := by
  induction rest with
  | nil => rfl
  | cons p rest ih =>
    simp only [sum, sumVia, List.foldr_cons, List.foldrM_cons] at ih ⊢
    rw [← ih]
    rfl

/-- Answers without an effect give the sum and no effect, whatever effects there could be. -/
theorem sumVia_pure {m : Type → Type} [Monad m] [LawfulMonad m] (M : Mac)
    (pairs : List (Int32 × Int32)) :
    sumVia (fun r => (pure (M.answer r) : m Int64)) pairs = pure (M.sum pairs) := by
  match pairs with
  | [] => rfl
  | (a, b) :: rest =>
    rw [sum_cons]
    simp only [sumVia, pure_bind]
    induction rest with
    | nil => rfl
    | cons p rest ih =>
      rw [List.foldrM_cons, ih, pure_bind]
      rfl

/-- Logging the calls of a sum does not change it. -/
theorem fst_sumVia_answerLogged (M : Mac) (pairs : List (Int32 × Int32)) (log : List Call) :
    (sumVia M.answerLogged pairs log).1 = M.sum pairs := by
  match pairs with
  | [] => rfl
  | (a, b) :: rest =>
    rw [sum_cons]
    induction rest with
    | nil => rfl
    | cons p rest ih =>
      rw [List.foldr_cons, ← ih]
      simp only [sumVia, List.foldrM_cons]
      rfl

end FixedPoint.Mac
