import FixedPoint.Error
import FixedPoint.Proofs.Dot.Verdict
import FixedPoint.Proofs.Numeral
import Mathlib.Data.List.Nodup

/-!
# What an error text says

A text names one error. Its words tell the cause, whatever the numbers in it, and between the words
the numbers can be read. So a text that was logged can stand for the error, and the event of a
refused dot product says all that the caller is told.
-/

namespace FixedPoint

namespace Error

/-- The error with its numbers left blank. -/
def kind : Error → Error
  | .emptyInput => .emptyInput
  | .lengthTooShort operand _ _ => .lengthTooShort operand 0 0
  | .bufferTooSmall _ _ => .bufferTooSmall 0 0
  | .unalignedLength _ => .unalignedLength 0

def kinds : List Error :=
  [.emptyInput, .lengthTooShort .lhs 0 0, .lengthTooShort .rhs 0 0, .bufferTooSmall 0 0,
    .unalignedLength 0]

theorem kind_mem_kinds (e : Error) : e.kind ∈ kinds := by
  cases e with
  | lengthTooShort operand len order => cases operand <;> simp [kind, kinds]
  | _ => simp [kind, kinds]

/-- Errors of one kind differ in their numbers alone. -/
theorem kind_eq_cases {e e' : Error} (same : e.kind = e'.kind) :
    (e = .emptyInput ∧ e' = .emptyInput) ∨
    (∃ operand len order len' order', e = .lengthTooShort operand len order ∧
      e' = .lengthTooShort operand len' order') ∨
    (∃ needed available needed' available', e = .bufferTooSmall needed available ∧
      e' = .bufferTooSmall needed' available') ∨
    ∃ len len', e = .unalignedLength len ∧ e' = .unalignedLength len' := by
  cases e <;> cases e' <;> simp_all [kind]

/-- A text without its digits. -/
def words (s : String) : List Char := s.toList.filter fun c => !c.isDigit

theorem words_append (s t : String) : words (s ++ t) = words s ++ words t := by
  rw [words, String.toList_append, List.filter_append]
  rfl

theorem words_text (n : Nat) : words (Numeral.text n) = [] := by
  rw [words, Numeral.text, String.toList_ofList, List.filter_eq_nil_iff]
  intro c digit
  simp [Numeral.isDigit_of_mem_toDigits digit]

theorem words_message (e : Error) : words e.message = words e.kind.message := by
  cases e <;> unfold kind message <;> simp only [words_append, words_text]

theorem words_debugText (e : Error) : words e.debugText = words e.kind.debugText := by
  cases e <;> unfold kind debugText <;> simp only [words_append, words_text]

/-- The words of a text tell the kind, if those of two kinds differ and no number adds to them. -/
theorem kind_eq_of_text {text : Error → String} (told : (kinds.map fun k => words (text k)).Nodup)
    (blank : ∀ e, words (text e) = words (text e.kind)) {e e' : Error} (same : text e = text e') :
    e.kind = e'.kind := by
  apply List.inj_on_of_nodup_map told e.kind_mem_kinds e'.kind_mem_kinds
  rw [← blank, ← blank, same]

theorem message_injective : Function.Injective message := by
  have told : (kinds.map fun k => words k.message).Nodup := by decide +kernel
  have afterLen : Numeral.Delimits " elements, dot product order is " := by decide
  have afterNeeded : Numeral.Delimits ", have " := by decide
  intro e e' same
  obtain ⟨rfl, rfl⟩ | ⟨operand, len, order, len', order', rfl, rfl⟩ |
    ⟨needed, available, needed', available', rfl, rfl⟩ | ⟨len, len', rfl, rfl⟩ :=
    kind_eq_cases (kind_eq_of_text told words_message same)
  · rfl
  · unfold message at same
    simp only [String.append_assoc, String.append_right_inj, Numeral.text_append_inj afterLen,
      Numeral.text_natCast_inj] at same
    rw [same.1, same.2]
  · unfold message at same
    simp only [String.append_assoc, String.append_right_inj, Numeral.text_append_inj afterNeeded,
      Numeral.text_natCast_inj] at same
    rw [same.1, same.2]
  · unfold message at same
    simp only [String.append_left_inj, String.append_right_inj, Numeral.text_natCast_inj] at same
    rw [same]

theorem debugText_injective : Function.Injective debugText := by
  have told : (kinds.map fun k => words k.debugText).Nodup := by decide +kernel
  have afterLen : Numeral.Delimits ", order: " := by decide
  have afterNeeded : Numeral.Delimits ", available: " := by decide
  intro e e' same
  obtain ⟨rfl, rfl⟩ | ⟨operand, len, order, len', order', rfl, rfl⟩ |
    ⟨needed, available, needed', available', rfl, rfl⟩ | ⟨len, len', rfl, rfl⟩ :=
    kind_eq_cases (kind_eq_of_text told words_debugText same)
  · rfl
  · unfold debugText at same
    simp only [String.append_assoc, String.append_right_inj, String.append_left_inj,
      Numeral.text_append_inj afterLen, Numeral.text_natCast_inj] at same
    rw [same.1, same.2]
  · unfold debugText at same
    simp only [String.append_assoc, String.append_right_inj, String.append_left_inj,
      Numeral.text_append_inj afterNeeded, Numeral.text_natCast_inj] at same
    rw [same.1, same.2]
  · unfold debugText at same
    simp only [String.append_left_inj, String.append_right_inj, Numeral.text_natCast_inj] at same
    rw [same]

/-- **A text names one error**, with its cause, its operand and every number. What the event of a
refused dot product says is the text of the error that is returned, and of no other. -/
theorem texts_name_errors :
    Function.Injective message ∧ Function.Injective debugText ∧
    ∀ (F : Nat) (M : Mac) (a b : List (Fixed F)) (n : Nat) (event : Event),
      (Fixed.dotReported M a b n).2 = [event] →
      ∀ e, Fixed.dotWith M a b n = .error e ↔ event.error = e.message := by
  refine ⟨message_injective, debugText_injective, ?_⟩
  intro F M a b n event reported e
  obtain ⟨cause, refused⟩ := Fixed.snd_dotReported_eq_singleton_iff.1 ⟨event, reported⟩
  rw [(Fixed.snd_dotReported M a b n).1 cause refused] at reported
  cases reported
  rw [refused, message_injective.eq_iff, Except.error.injEq]

/-- The digits of two numbers are the same in a row, and the texts differ. -/
theorem texts_name_errors_same_digits :
    let a : List (Fixed 15) := [.one]
    (bufferTooSmall 1 23).message ≠ (bufferTooSmall 12 3).message ∧
      (lengthTooShort .lhs 1 23).debugText ≠ (lengthTooShort .lhs 12 3).debugText ∧
      ∃ event, (Fixed.dotReported .skewed a [] 23).2 = [event] ∧
        Fixed.dotWith .skewed a [] 23 = .error (.lengthTooShort .lhs 1 23) ∧
        Fixed.dotWith .skewed a [] 23 ≠ .error (.lengthTooShort .lhs 12 3) := by
  intro a
  obtain ⟨messages, debugTexts, events⟩ := texts_name_errors
  have reported := events 15 .skewed a [] 23 (.dotRejected 1 0 23 (.lengthTooShort .lhs 1 23)) rfl
  refine ⟨messages.ne (by decide), debugTexts.ne (by decide), _, rfl, (reported _).2 rfl, ?_⟩
  intro other
  have same : (lengthTooShort .lhs 1 23).message = (lengthTooShort .lhs 12 3).message :=
    (reported _).1 other
  exact absurd (messages same) (by decide)

end Error

end FixedPoint
