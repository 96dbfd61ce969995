import FixedPoint.Fixed.Dot
import FixedPoint.Mac.Variants

namespace FixedPoint.Fixed

variable {F : Nat}

/-- The outcome of a dot product without its value. -/
def verdict (outcome : Except Error (Fixed F)) : Except Error Unit := outcome.map fun _ => ()

theorem verdict_dotWith (M : Mac) (a b : List (Fixed F)) (n : Nat) :
    verdict (dotWith M a b n) =
      (rejection? a.length b.length n).elim (.ok ()) .error := by
  cases judged : rejection? a.length b.length n with
  | none => rw [dotWith_of_accepted judged]; rfl
  | some e => rw [dotWith_of_rejection judged]; rfl

/-- What is reported is the error that is returned, and nothing else. -/
theorem snd_dotReported (M : Mac) (a b : List (Fixed F)) (n : Nat) :
    (∀ e, dotWith M a b n = .error e →
      (dotReported M a b n).2 =
        [⟨"DEBUG", "rejected dot product", a.length, b.length, n, e.message⟩]) ∧
    ∀ r, dotWith M a b n = .ok r → (dotReported M a b n).2 = [] := by
  constructor
  · intro e refused
    rw [dotReported_of_rejection (dotWith_eq_error_iff.1 refused)]
    rfl
  · intro r accepted
    rw [dotReported_of_accepted (dotWith_eq_ok_iff.1 accepted).1]

theorem snd_dotReported_eq_singleton_iff {M : Mac} {a b : List (Fixed F)} {n : Nat} :
    (∃ event, (dotReported M a b n).2 = [event]) ↔ ∃ e, dotWith M a b n = .error e := by
  obtain ⟨reported, silent⟩ := snd_dotReported M a b n
  cases outcome : dotWith M a b n with
  | error e => simp [reported e outcome]
  | ok r => simp [silent r outcome]

/-- **The order is judged first, then the left list, then the right one.** Nothing else decides
whether a dot product is refused and why. -/
theorem dotWith_verdict (M : Mac) (a b : List (Fixed F)) (n : Nat) :
    ((dotWith M a b n = .error .emptyInput ↔ n = 0) ∧
      (dotWith M a b n = .error (.lengthTooShort .lhs a.length n) ↔ 0 < n ∧ a.length < n) ∧
      (dotWith M a b n = .error (.lengthTooShort .rhs b.length n) ↔
        0 < n ∧ n ≤ a.length ∧ b.length < n) ∧
      ((∃ r, dotWith M a b n = .ok r) ↔ 0 < n ∧ n ≤ a.length ∧ n ≤ b.length)) ∧
    (∀ (G : Nat) (M' : Mac) (a' b' : List (Fixed G)), a'.length = a.length →
      b'.length = b.length → verdict (dotWith M' a' b' n) = verdict (dotWith M a b n)) ∧
    (dotReported M a b n).1 = dotWith M a b n ∧
    ((∃ event, (dotReported M a b n).2 = [event]) ↔ ∃ e, dotWith M a b n = .error e) ∧
    (∀ e, dotWith M a b n = .error e →
      (dotReported M a b n).2 =
        [⟨"DEBUG", "rejected dot product", a.length, b.length, n, e.message⟩]) ∧
    ∀ r, dotWith M a b n = .ok r → (dotReported M a b n).2 = [] := by
  refine ⟨?_, ?_, fst_dotReported M a b n, snd_dotReported_eq_singleton_iff,
    snd_dotReported M a b n⟩
  · simp only [dotWith_eq_error_iff, rejection?_eq_some_iff]
    refine ⟨?_, ?_, ?_, exists_dotWith_eq_ok_iff⟩ <;> simp
  · intro G M' a' b' lengthA lengthB
    rw [verdict_dotWith, verdict_dotWith, lengthA, lengthB]

/-- Both lists are short, and the left one is named. -/
theorem dotWith_verdict_both_short :
    let a : List (Fixed 15) := [one]
    dotWith .skewed a [] 3 = .error (.lengthTooShort .lhs 1 3) ∧
      (dotReported .skewed a [] 3).2 =
        [⟨"DEBUG", "rejected dot product", 1, 0, 3,
          "lhs has 1 elements, dot product order is 3"⟩] := by
  intro a
  obtain ⟨⟨-, left, -, -⟩, -, -, -, reported, -⟩ := dotWith_verdict .skewed a [] 3
  have refused := left.2 (by decide)
  have text : (Error.lengthTooShort .lhs 1 3).message =
      "lhs has 1 elements, dot product order is 3" := by decide
  have events := reported _ refused
  rw [show a.length = 1 from rfl, text] at events
  exact ⟨refused, events⟩

end FixedPoint.Fixed
