import FixedPoint.Mac.Sum
import FixedPoint.Mac.Variants

namespace FixedPoint.Mac

variable {M : Mac}

/-- A product is a step from zero, and two steps in a row can change places. -/
structure Commuting (M : Mac) : Prop where
  start : ∀ a b, M.mul a b = M.mulAdd 0 a b
  swap : ∀ acc a b c d, M.mulAdd (M.mulAdd acc a b) c d = M.mulAdd (M.mulAdd acc c d) a b

/-- A unit that adds its own products. The accumulator wraps, and wrapped sums still commute. -/
theorem commuting_of_mulAdd (h : ∀ acc a b, M.mulAdd acc a b = acc + M.mul a b) : M.Commuting := by
  constructor
  · intro a b
    rw [h, Int64.zero_add]
  · intro acc a b c d
    simp only [h, Int64.add_assoc, Int64.add_comm (M.mul a b)]

theorem exact_commuting : exact.Commuting := commuting_of_mulAdd fun _ _ _ => rfl

theorem doubling_commuting : doubling.Commuting := commuting_of_mulAdd fun _ _ _ => rfl

theorem Commuting.foldr_perm (h : M.Commuting) {pairs pairs' : List (Int32 × Int32)}
    (order : pairs.Perm pairs') (acc : Int64) :
    pairs.foldr (fun p acc => M.mulAdd acc p.1 p.2) acc =
      pairs'.foldr (fun p acc => M.mulAdd acc p.1 p.2) acc := by
  apply order.foldr_eq'
  intro p _ q _ acc
  exact h.swap acc p.1 p.2 q.1 q.2

/-- The first pair is a step like the others. -/
theorem Commuting.sum_eq_foldr (h : M.Commuting) (pairs : List (Int32 × Int32)) :
    M.sum pairs = pairs.foldr (fun p acc => M.mulAdd acc p.1 p.2) 0 := by
  cases pairs with
  | nil => rfl
  | cons p rest =>
    calc M.sum (p :: rest)
        = rest.foldr (fun q acc => M.mulAdd acc q.1 q.2) (M.mulAdd 0 p.1 p.2) := by
          rw [sum_cons, h.start]
      _ = (rest ++ [p]).foldr (fun q acc => M.mulAdd acc q.1 q.2) 0 := by
          rw [List.foldr_append]
          rfl
      _ = (p :: rest).foldr (fun q acc => M.mulAdd acc q.1 q.2) 0 :=
          h.foldr_perm (List.perm_append_singleton p rest) 0

theorem Commuting.sum_perm (h : M.Commuting) {pairs pairs' : List (Int32 × Int32)}
    (order : pairs.Perm pairs') : M.sum pairs = M.sum pairs' := by
  rw [h.sum_eq_foldr, h.sum_eq_foldr, h.foldr_perm order]

end FixedPoint.Mac
