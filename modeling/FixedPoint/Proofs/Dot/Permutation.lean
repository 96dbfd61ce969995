import FixedPoint.Fixed.Dot
import FixedPoint.Proofs.Mac.Commuting
import Mathlib.Data.List.FinRange

namespace FixedPoint.Fixed

variable {F : Nat} {a b a' b' : List (Fixed F)} {n : Nat} {σ : Equiv.Perm (Fin n)}

/-- The first `n` elements of `a'` are those of `a`, rearranged by `σ`. The lists may differ in
length and in all elements behind. -/
def Rearranged (σ : Equiv.Perm (Fin n)) (a a' : List (Fixed F)) : Prop :=
  ∀ i : Fin n, a'[i.val]? = a[(σ i).val]?

instance : Decidable (Rearranged σ a a') :=
  inferInstanceAs (Decidable (∀ i : Fin n, a'[i.val]? = a[(σ i).val]?))

/-- The words at a position, if both lists have it. -/
def wordsAt? (a b : List (Fixed F)) (i : Nat) : Option (Int32 × Int32) := do
  let x ← a[i]?
  let y ← b[i]?
  return (x.raw, y.raw)

theorem factors_eq_filterMap (a b : List (Fixed F)) (n : Nat) :
    factors a b n = (List.finRange n).filterMap fun i : Fin n => wordsAt? a b i := by
  induction n generalizing a b with
  | zero => rfl
  | succ n ih =>
    rw [List.finRange_succ, List.filterMap_cons, List.filterMap_map]
    cases a with
    | nil => simp [factors, wordsAt?]
    | cons x a =>
      cases b with
      | nil => simp [factors, wordsAt?]
      | cons y b =>
        have rest := ih a b
        simp only [factors] at rest ⊢
        simp [wordsAt?, rest]

theorem factors_perm (ha : Rearranged σ a a') (hb : Rearranged σ b b') :
    (factors a' b' n).Perm (factors a b n) := by
  have same : (fun i : Fin n => wordsAt? a' b' i) = (fun i : Fin n => wordsAt? a b i) ∘ σ := by
    funext i
    simp only [wordsAt?, ha i, hb i, Function.comp_apply]
  rw [factors_eq_filterMap, factors_eq_filterMap, same, ← List.filterMap_map]
  exact σ.map_finRange_perm.filterMap _

/-- Rearranged lists agree on how many of the first `n` elements they have. -/
theorem Rearranged.min_length_eq (h : Rearranged σ a a') : min n a'.length = min n a.length := by
  have count := (factors_perm h h).length_eq
  simpa only [factors, List.length_map, List.length_take, List.length_zip, Nat.min_self] using count

theorem Rearranged.rejection?_eq (ha : Rearranged σ a a') (hb : Rearranged σ b b') :
    rejection? a'.length b'.length n = rejection? a.length b.length n := by
  rw [← rejection?_min, ha.min_length_eq, hb.min_length_eq, rejection?_min]

/-- **Any order of the pairs.** The same rearrangement of both lists changes no dot product on a
unit whose steps commute, whatever lies behind the first `n` elements. The exact unit and the
doubling one are such units, also where their accumulators wrap. -/
theorem dotWith_rearranged (ha : Rearranged σ a a') (hb : Rearranged σ b b') :
    (∀ M : Mac, M.Commuting → dotWith M a' b' n = dotWith M a b n) ∧
      Mac.exact.Commuting ∧ Mac.doubling.Commuting := by
  refine ⟨?_, Mac.exact_commuting, Mac.doubling_commuting⟩
  intro M commuting
  apply dotWith_congr (ha.rejection?_eq hb)
  intro _
  rw [commuting.sum_perm (factors_perm ha hb)]

/-- The first pair changes places with the third. Both accumulators leave 64 bits, one of them a
step earlier, and the lists go on differently. -/
theorem dotWith_rearranged_wrapping :
    let a : List (Fixed 15) := [epsilon, minValue, minValue, minValue]
    let b : List (Fixed 15) := [one, minValue, minValue, one]
    let a' : List (Fixed 15) := [minValue, minValue, epsilon]
    let b' : List (Fixed 15) := [minValue, minValue, one, two, one]
    dotWith .doubling a' b' 3 = dotWith .doubling a b 3 ∧
      dotWith .doubling a b 3 = .ok ⟨2⟩ := by
  intro a b a' b'
  have ha : Rearranged (n := 3) (Equiv.swap 0 2) a a' := by decide
  have hb : Rearranged (n := 3) (Equiv.swap 0 2) b b' := by decide
  exact ⟨(dotWith_rearranged ha hb).1 .doubling Mac.doubling_commuting, by decide⟩

end FixedPoint.Fixed
