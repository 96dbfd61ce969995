import FixedPoint.Numeral
import Mathlib.Logic.Function.Basic

namespace FixedPoint.Numeral

theorem isDigit_of_mem_toDigits {n : Nat} {c : Char} (h : c ∈ Nat.toDigits 10 n) : c.isDigit :=
  Nat.isDigit_of_mem_toDigits (by decide) (by decide) h

theorem toDigits_injective : Function.Injective (Nat.toDigits 10) :=
  Function.LeftInverse.injective fun _ => Nat.ofDigitChars_ten_toDigits

/-- A digit is the one at its place among the digits. -/
theorem digitChar_of_isDigit {c : Char} (h : c.isDigit) :
    c.toNat - '0'.toNat < 10 ∧ Nat.digitChar (c.toNat - '0'.toNat) = c := by
  obtain ⟨low, high⟩ := Char.isDigit_iff_toNat.1 h
  simp only [Char.reduceToNat] at low high ⊢
  have place : c.toNat - 48 < 10 := by omega
  refine ⟨place, Char.toNat_inj.1 ?_⟩
  rw [Nat.toNat_digitChar_of_lt_ten place]
  omega

/-- Further digits go behind those of a number that is not zero. -/
theorem toDigits_append {ds : List Char} (digits : ∀ d ∈ ds, d.isDigit) {n : Nat} (pos : 0 < n) :
    Nat.toDigits 10 n ++ ds = Nat.toDigits 10 (Nat.ofDigitChars 10 ds n) := by
  induction ds generalizing n with
  | nil => simp
  | cons d ds ih =>
    obtain ⟨small, place⟩ := digitChar_of_isDigit (digits d List.mem_cons_self)
    have next : Nat.toDigits 10 n ++ [d] = Nat.toDigits 10 (10 * n + (d.toNat - '0'.toNat)) := by
      rw [← Nat.toDigits_append_toDigits (by decide) pos small, Nat.toDigits_of_lt_base small,
        place]
    calc Nat.toDigits 10 n ++ d :: ds
        = (Nat.toDigits 10 n ++ [d]) ++ ds := by simp
      _ = Nat.toDigits 10 (10 * n + (d.toNat - '0'.toNat)) ++ ds := by rw [next]
      _ = Nat.toDigits 10 (Nat.ofDigitChars 10 (d :: ds) n) := by
        rw [ih (fun e he => digits e (List.mem_cons_of_mem d he)) (by omega),
          Nat.ofDigitChars_cons]

/-- Digits with no zero in front are written as they were read. -/
theorem toDigits_ofDigitChars {d : Char} {ds : List Char} (first : d.isDigit) (ne : d ≠ '0')
    (others : ∀ e ∈ ds, e.isDigit) :
    Nat.toDigits 10 (Nat.ofDigitChars 10 (d :: ds) 0) = d :: ds := by
  obtain ⟨small, place⟩ := digitChar_of_isDigit first
  have pos : 0 < d.toNat - '0'.toNat := by
    by_contra none
    rw [show d.toNat - '0'.toNat = 0 by omega] at place
    exact ne place.symm
  rw [Nat.ofDigitChars_cons, Nat.mul_zero, Nat.zero_add, ← toDigits_append others pos,
    Nat.toDigits_of_lt_base small, place]
  rfl

theorem exists_toDigits_eq_cons {n : Nat} (pos : 0 < n) :
    ∃ d ds, Nat.toDigits 10 n = d :: ds ∧ d ≠ '0' := by
  induction n using Nat.base_induction 10 (by decide) with
  | single n small =>
    refine ⟨_, [], Nat.toDigits_of_lt_base small, ?_⟩
    simp only [ne_eq, Nat.digitChar_eq_zero]
    omega
  | digit m k small posM ih =>
    obtain ⟨d, ds, front, ne⟩ := ih posM
    refine ⟨d, ds ++ Nat.toDigits 10 k, ?_, ne⟩
    rw [← Nat.toDigits_append_toDigits (by decide) posM small, front, List.cons_append]

theorem nat?_toDigits (n : Nat) : nat? (Nat.toDigits 10 n) = some n := by
  rcases Nat.eq_zero_or_pos n with rfl | pos
  · rfl
  · obtain ⟨d, ds, written, ne⟩ := exists_toDigits_eq_cons pos
    have digits : (d :: ds).all Char.isDigit := by
      rw [← written]
      exact List.all_eq_true.2 fun _ => isDigit_of_mem_toDigits
    have read : nat? (d :: ds) = some (Nat.ofDigitChars 10 (d :: ds) 0) := by
      simp [nat?, ne, digits]
    rw [written, read, ← written, Nat.ofDigitChars_ten_toDigits]

theorem nat?_eq_some_iff {cs : List Char} {n : Nat} :
    nat? cs = some n ↔ cs = Nat.toDigits 10 n := by
  constructor
  · intro read
    unfold nat? at read
    split at read
    · cases read
    · cases read
      rfl
    · split at read
      · rename_i digits
        obtain ⟨ne, all⟩ := digits
        simp only [List.all_cons, Bool.and_eq_true, List.all_eq_true] at all
        cases read
        exact (toDigits_ofDigitChars all.1 ne all.2).symm
      · cases read
  · rintro rfl
    exact nat?_toDigits n

theorem int?_ofInt (z : Int) : int? (ofInt z) = some z := by
  cases z with
  | ofNat n =>
    have unsigned : ∀ cs, ofInt (.ofNat n) ≠ '-' :: cs := by
      intro cs signed
      have sign : '-' ∈ Nat.toDigits 10 n := by
        rw [show Nat.toDigits 10 n = '-' :: cs from signed]
        exact List.mem_cons_self
      exact absurd (isDigit_of_mem_toDigits sign) (by decide)
    unfold int?
    split
    · rename_i cs signed
      exact absurd signed (unsigned cs)
    · rw [ofInt, nat?_toDigits]
      rfl
  | negSucc n => simp only [ofInt, int?, nat?_toDigits]

/-- A text is read as an integer exactly if it is the integer's numeral. -/
theorem int?_eq_some_iff {cs : List Char} {z : Int} : int? cs = some z ↔ cs = ofInt z := by
  constructor
  · intro read
    unfold int? at read
    split at read
    · split at read
      · rename_i digits
        cases read
        rw [ofInt, nat?_eq_some_iff.1 digits]
      · cases read
    · obtain ⟨n, digits, rfl⟩ := Option.map_eq_some_iff.1 read
      exact nat?_eq_some_iff.1 digits
  · rintro rfl
    exact int?_ofInt z

theorem ofInt_injective : Function.Injective ofInt := by
  intro y z same
  have read := int?_ofInt y
  rw [same, int?_ofInt] at read
  exact (Option.some.inj read).symm

theorem text_injective : Function.Injective text := by
  intro y z same
  exact ofInt_injective (String.ofList_injective same)

theorem text_natCast_inj {m n : Nat} : text m = text n ↔ m = n := by
  rw [text_injective.eq_iff, Int.natCast_inj]

/-- The beginning of this text marks the end of a numeral in front of it. -/
def Delimits (sep : String) : Prop := sep.toList.head?.any fun c => !c.isDigit

instance (sep : String) : Decidable (Delimits sep) := inferInstanceAs (Decidable (_ = true))

theorem toList_text_append (n : Nat) (s : String) :
    (text n ++ s).toList = Nat.toDigits 10 n ++ s.toList := by
  rw [String.toList_append, text, String.toList_ofList]
  rfl

theorem takeWhile_text_append {sep : String} (h : Delimits sep) (n : Nat) (s : String) :
    (text n ++ (sep ++ s)).toList.takeWhile Char.isDigit = Nat.toDigits 10 n := by
  obtain ⟨c, first, other⟩ := (Option.any_eq_true _ _).1 h
  simp only [Bool.not_eq_true'] at other
  obtain ⟨cs, chars⟩ := List.head?_eq_some_iff.1 first
  rw [toList_text_append, String.toList_append, chars,
    List.takeWhile_append_of_pos fun _ => isDigit_of_mem_toDigits, List.cons_append,
    List.takeWhile_cons_of_neg (by simp [other]), List.append_nil]

/-- A numeral is told from what is behind it. -/
theorem text_append_inj {sep s t : String} (h : Delimits sep) {m n : Nat} :
    text m ++ (sep ++ s) = text n ++ (sep ++ t) ↔ m = n ∧ s = t := by
  constructor
  · intro same
    have numerals : Nat.toDigits 10 m = Nat.toDigits 10 n := by
      rw [← takeWhile_text_append h m s, same, takeWhile_text_append h n t]
    have number := toDigits_injective numerals
    subst number
    rw [String.append_right_inj, String.append_right_inj] at same
    exact ⟨rfl, same⟩
  · rintro ⟨rfl, rfl⟩
    rfl

end FixedPoint.Numeral
