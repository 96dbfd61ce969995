import FixedPoint.Proofs.Numeral
import FixedPoint.Proofs.Residue
import FixedPoint.Serial.Json
import Mathlib.Data.List.Forall2
import Mathlib.Data.List.TakeWhile

/-!
# Documents of values

The document of a value is one integer. Apart from `-0`, JSON spells an integer in one way only, its
numeral. So a document is read exactly if the text between its blanks is the numeral of a word,
and the elements of a written list are read one by one.
-/

namespace FixedPoint.Serial

/-- A JSON form of words: the word that a document denotes, and the document of a list of words. -/
structure DocumentForm where
  read? : String → Option Int32
  writeMany : List Int32 → String

namespace Json

/-- Nothing but white space. -/
def Blank (cs : List Char) : Prop := ∀ c ∈ cs, isBlank c

/-- The integers of JSON that have no sign, with the numbers that they denote. -/
inductive Unsigned : List Char → Nat → Prop
  | zero : Unsigned ['0'] 0
  | digits {d : Char} {ds : List Char} (first : d.isDigit) (ne : d ≠ '0')
      (others : ∀ e ∈ ds, e.isDigit) : Unsigned (d :: ds) (Nat.ofDigitChars 10 (d :: ds) 0)

/-- The integers of JSON. There is no plus sign. -/
inductive Integer : List Char → Int → Prop
  | plain {cs : List Char} {n : Nat} (digits : Unsigned cs n) : Integer cs n
  | minus {cs : List Char} {n : Nat} (digits : Unsigned cs n) : Integer ('-' :: cs) (-n)

end Json

open Json

/-- The rules of JSON for words. A document of a word is one integer in range with white space
around it, and there is no other; of `-0`, which some take for no integer, nothing is said. A list
is written between brackets, with commas between the integers and no white space. -/
structure DocumentForm.Standard (W : DocumentForm) : Prop where
  taken : ∀ before cs after z, Blank before → Blank after → Integer cs z → cs ≠ ['-', '0'] →
    -2 ^ 31 ≤ z → z < 2 ^ 31 → W.read? (.ofList (before ++ cs ++ after)) = some (Int32.ofInt z)
  only : ∀ document w, W.read? document = some w → ∃ before cs after,
    document.toList = before ++ cs ++ after ∧ Blank before ∧ Blank after ∧ Integer cs w.toInt
  written : ∀ ws, ∃ texts, (W.writeMany ws).toList = '[' :: [','].intercalate texts ++ [']'] ∧
    List.Forall₂ (fun cs w => Integer cs w.toInt ∧ cs ≠ ['-', '0']) texts ws

/-- The JSON form of values, taken for words. The width has no part in it. -/
def Json.words : DocumentForm where
  read? document := (Json.read? document : Option (Fixed 0)).map Fixed.raw
  writeMany ws := Json.writeMany (ws.map fun w => (⟨w⟩ : Fixed 0))

/-- A value is serialised as its word. -/
def DocumentForm.value? {F : Nat} (W : DocumentForm) (document : String) : Option (Fixed F) :=
  (W.read? document).map Fixed.mk

/-- The texts between the commas of a list, its brackets taken off. -/
def Json.elements (document : String) : List String :=
  ((document.toList.drop 1).dropLast.splitOn ',').map String.ofList

/-- Texts that are no numeral of a word. -/
inductive Json.Malformed : List Char → Prop
  /-- Some character is neither a digit nor a minus sign: a plus sign, a point, the mark of an
  exponent, a quote, a bracket, a blank, or whatever comes behind a number. -/
  | foreign {cs : List Char} (c : Char) (mem : c ∈ cs) (digit : ¬c.isDigit) (minus : c ≠ '-') :
      Malformed cs
  | innerMinus {c : Char} {cs : List Char} (mem : '-' ∈ cs) : Malformed (c :: cs)
  | zeroInFront {c : Char} {cs : List Char} : Malformed ('0' :: c :: cs)
  | zeroBehindMinus {c : Char} {cs : List Char} : Malformed ('-' :: '0' :: c :: cs)
  | outOfRange {z : Int} (range : ¬(-2 ^ 31 ≤ z ∧ z < 2 ^ 31)) : Malformed (Numeral.ofInt z)

namespace Json

variable {F : Nat}

theorem Unsigned.eq_toDigits {cs : List Char} {n : Nat} (h : Unsigned cs n) :
    cs = Nat.toDigits 10 n := by
  cases h with
  | zero => rfl
  | digits first ne others => exact (Numeral.toDigits_ofDigitChars first ne others).symm

theorem unsigned_toDigits (n : Nat) : Unsigned (Nat.toDigits 10 n) n := by
  rcases Nat.eq_zero_or_pos n with rfl | pos
  · exact .zero
  · obtain ⟨d, ds, written, ne⟩ := Numeral.exists_toDigits_eq_cons pos
    have digits : ∀ c ∈ d :: ds, c.isDigit := by
      rw [← written]
      exact fun _ => Numeral.isDigit_of_mem_toDigits
    have unsigned := Unsigned.digits (digits d List.mem_cons_self) ne
      fun e he => digits e (List.mem_cons_of_mem d he)
    rwa [← written, Nat.ofDigitChars_ten_toDigits] at unsigned

/-- But for `-0`, an integer is spelled by its numeral. -/
theorem Integer.eq_ofInt {cs : List Char} {z : Int} (h : Integer cs z) (ne : cs ≠ ['-', '0']) :
    cs = Numeral.ofInt z := by
  cases h with
  | plain digits => exact digits.eq_toDigits
  | @minus ds n digits =>
    cases n with
    | zero =>
      rw [digits.eq_toDigits, Nat.toDigits_zero] at ne
      exact absurd rfl ne
    | succ n => rw [digits.eq_toDigits]; rfl

theorem integer_ofInt (z : Int) : Integer (Numeral.ofInt z) z := by
  cases z with
  | ofNat n => exact .plain (unsigned_toDigits n)
  | negSucc n => exact .minus (unsigned_toDigits (n + 1))

theorem Unsigned.isDigit {cs : List Char} {n : Nat} (h : Unsigned cs n) : ∀ c ∈ cs, c.isDigit := by
  rw [h.eq_toDigits]
  exact fun _ => Numeral.isDigit_of_mem_toDigits

theorem Integer.isDigit_or_minus {cs : List Char} {z : Int} (h : Integer cs z) {c : Char}
    (mem : c ∈ cs) : c.isDigit ∨ c = '-' := by
  cases h with
  | plain digits => exact .inl (digits.isDigit c mem)
  | minus digits =>
    rcases List.mem_cons.1 mem with sign | digit
    · exact .inr sign
    · exact .inl (digits.isDigit c digit)

theorem Integer.isDigit_of_mem_tail {c : Char} {cs : List Char} {z : Int}
    (h : Integer (c :: cs) z) : ∀ d ∈ cs, d.isDigit := by
  intro d mem
  cases h with
  | plain digits => exact digits.isDigit d (List.mem_cons_of_mem c mem)
  | minus digits => exact digits.isDigit d mem

theorem Integer.not_isBlank {cs : List Char} {z : Int} (h : Integer cs z) :
    ∀ c ∈ cs, ¬isBlank c := by
  intro c mem blank
  simp only [isBlank, Bool.or_eq_true, beq_iff_eq] at blank
  rcases h.isDigit_or_minus mem with digit | rfl
  · obtain ((rfl | rfl) | rfl) | rfl := blank <;> exact absurd digit (by decide)
  · simp at blank

theorem dropWhile_isBlank_append {before cs : List Char} (hb : Blank before)
    (solid : ∀ c ∈ cs.head?, ¬isBlank c) : (before ++ cs).dropWhile isBlank = cs := by
  rw [List.dropWhile_append_of_pos hb]
  cases cs with
  | nil => rfl
  | cons c cs => exact List.dropWhile_cons_of_neg (solid c rfl)

theorem Blank.reverse {cs : List Char} (h : Blank cs) : Blank cs.reverse := by
  intro c mem
  exact h c (List.mem_reverse.1 mem)

/-- The blanks around a text are stripped off, as far as something else. -/
theorem strip_append {before cs after : List Char} (hb : Blank before) (ha : Blank after)
    (ne : cs ≠ []) (solid : ∀ c ∈ cs, ¬isBlank c) : strip (before ++ cs ++ after) = cs := by
  have left : (before ++ (cs ++ after)).dropWhile isBlank = cs ++ after := by
    apply dropWhile_isBlank_append hb
    intro c first
    rw [List.head?_append_of_ne_nil _ ne] at first
    exact solid c (List.mem_of_mem_head? first)
  have right : (after.reverse ++ cs.reverse).dropWhile isBlank = cs.reverse := by
    apply dropWhile_isBlank_append ha.reverse
    intro c first
    exact solid c (List.mem_reverse.1 (List.mem_of_mem_head? first))
  rw [strip, List.append_assoc, left, List.reverse_append, right, List.reverse_reverse]

theorem exists_strip (cs : List Char) :
    ∃ before after, Blank before ∧ Blank after ∧ cs = before ++ strip cs ++ after := by
  have blank : ∀ ds : List Char, Blank (ds.takeWhile isBlank) := by
    intro ds c mem
    exact List.mem_takeWhile_imp mem
  have right : strip cs ++ ((cs.dropWhile isBlank).reverse.takeWhile isBlank).reverse =
      cs.dropWhile isBlank := by
    rw [strip, ← List.reverse_append, List.takeWhile_append_dropWhile, List.reverse_reverse]
  refine ⟨_, _, blank cs, (blank (cs.dropWhile isBlank).reverse).reverse, ?_⟩
  rw [List.append_assoc, right, List.takeWhile_append_dropWhile]

theorem Integer.strip_append {before cs after : List Char} {z : Int} (h : Integer cs z)
    (hb : Blank before) (ha : Blank after) : strip (before ++ cs ++ after) = cs := by
  have ne : cs ≠ [] := by
    cases h with
    | plain digits => rw [digits.eq_toDigits]; exact Nat.toDigits_ne_nil
    | minus => exact List.cons_ne_nil _ _
  exact Json.strip_append hb ha ne h.not_isBlank

theorem ofInt_ne_minusZero (z : Int) : Numeral.ofInt z ≠ ['-', '0'] := by
  intro same
  have read := Numeral.int?_ofInt z
  rw [same] at read
  exact absurd read (by simp [Numeral.int?, Numeral.nat?])

theorem word?_eq_some_iff {z : Int} {w : Int32} : word? z = some w ↔ w.toInt = z := by
  unfold word?
  constructor
  · intro taken
    split at taken
    · rename_i range
      rw [Int32.toInt_minValue, Int32.toInt_maxValue] at range
      cases taken
      exact Int32.toInt_ofInt_of_le range.1 (by omega)
    · cases taken
  · rintro rfl
    have low := w.le_toInt
    have high := w.toInt_lt
    rw [if_pos (by rw [Int32.toInt_minValue, Int32.toInt_maxValue]; omega), Int32.ofInt_toInt]

theorem read?_eq_some_iff {document : String} {x : Fixed F} :
    read? document = some x ↔ strip document.toList = Numeral.ofInt x.raw.toInt := by
  rw [← Numeral.int?_eq_some_iff]
  cases integer : Numeral.int? (strip document.toList) with
  | none => simp [read?, integer]
  | some z =>
    have word : word? z = some x.raw ↔ z = x.raw.toInt := word?_eq_some_iff.trans eq_comm
    rw [Option.some.injEq, ← word]
    cases range : word? z <;> simp [read?, integer, range, Fixed.ext_iff]

theorem toList_writeMany (values : List (Fixed F)) :
    (writeMany values).toList =
      '[' :: [','].intercalate (values.map fun x => Numeral.ofInt x.raw.toInt) ++ [']'] := by
  simp [writeMany, write, Numeral.text, Function.comp_def]

/-- Values are read and written as JSON has it. -/
theorem words_standard : words.Standard where
  taken before cs after z hb ha integer ne low high := by
    have word : (⟨Int32.ofInt z⟩ : Fixed 0).raw.toInt = z := Int32.toInt_ofInt_of_le low high
    have read : read? (.ofList (before ++ cs ++ after)) = some (⟨Int32.ofInt z⟩ : Fixed 0) := by
      rw [read?_eq_some_iff, String.toList_ofList, integer.strip_append hb ha, word,
        integer.eq_ofInt ne]
    simp only [words, read, Option.map_some]
  only document w read := by
    obtain ⟨x, taken, rfl⟩ := Option.map_eq_some_iff.1 read
    obtain ⟨before, after, hb, ha, whole⟩ := exists_strip document.toList
    rw [read?_eq_some_iff.1 taken] at whole
    exact ⟨before, _, after, whole, hb, ha, integer_ofInt _⟩
  written ws := by
    refine ⟨ws.map fun w => Numeral.ofInt w.toInt, ?_, ?_⟩
    · simp only [words, toList_writeMany, List.map_map]
      rfl
    · rw [List.forall₂_map_left_iff, List.forall₂_same]
      exact fun w _ => ⟨integer_ofInt _, ofInt_ne_minusZero _⟩

theorem Malformed.ne_ofInt {cs : List Char} (h : Malformed cs) {r : Int} (low : -2 ^ 31 ≤ r)
    (high : r < 2 ^ 31) : cs ≠ Numeral.ofInt r := by
  intro same
  have read := Numeral.int?_eq_some_iff.2 same
  have integer : Integer cs r := same ▸ integer_ofInt r
  cases h with
  | foreign c mem digit minus =>
    rcases integer.isDigit_or_minus mem with here | here
    · exact digit here
    · exact minus here
  | innerMinus mem => exact absurd (integer.isDigit_of_mem_tail '-' mem) (by decide)
  | zeroInFront => simp [Numeral.int?, Numeral.nat?] at read
  | zeroBehindMinus => simp [Numeral.int?, Numeral.nat?] at read
  | outOfRange range =>
    rw [Numeral.ofInt_injective same] at range
    exact range ⟨low, high⟩

theorem strip_write (x : Fixed F) : strip (write x).toList = Numeral.ofInt x.raw.toInt := by
  have nil : Blank [] := fun c mem => absurd mem List.not_mem_nil
  have solid := (integer_ofInt x.raw.toInt).strip_append nil nil
  rw [List.nil_append, List.append_nil] at solid
  rw [write, Numeral.text, String.toList_ofList, solid]

theorem elements_writeMany {values : List (Fixed F)} (ne : values ≠ []) :
    elements (writeMany values) = values.map write := by
  have noComma : ∀ cs ∈ values.map fun x => Numeral.ofInt x.raw.toInt, ',' ∉ cs := by
    intro cs mem comma
    obtain ⟨x, -, rfl⟩ := List.mem_map.1 mem
    rcases (integer_ofInt x.raw.toInt).isDigit_or_minus comma with digit | minus
    · exact absurd digit (by decide)
    · exact absurd minus (by decide)
  rw [elements, toList_writeMany, List.cons_append, List.drop_succ_cons, List.drop_zero,
    List.dropLast_concat, List.splitOn_intercalate ',' noComma (by simpa using ne), List.map_map]
  rfl

end Json

namespace DocumentForm

variable {F : Nat} {W : DocumentForm}

theorem Standard.read?_eq_some_iff (h : W.Standard) {document : String} {w : Int32}
    (ne : strip document.toList ≠ ['-', '0']) :
    W.read? document = some w ↔ strip document.toList = Numeral.ofInt w.toInt := by
  constructor
  · intro read
    obtain ⟨before, cs, after, whole, hb, ha, integer⟩ := h.only document w read
    rw [whole, integer.strip_append hb ha] at ne ⊢
    exact integer.eq_ofInt ne
  · intro numeral
    obtain ⟨before, after, hb, ha, whole⟩ := Json.exists_strip document.toList
    have taken := h.taken before _ after w.toInt hb ha (Json.integer_ofInt w.toInt)
      (Json.ofInt_ne_minusZero w.toInt) w.le_toInt w.toInt_lt
    rwa [← numeral, ← whole, String.ofList_toList, Int32.ofInt_toInt] at taken

theorem Standard.value?_eq_read? (h : W.Standard) {document : String}
    (ne : strip document.toList ≠ ['-', '0']) :
    W.value? document = (Json.read? document : Option (Fixed F)) := by
  apply Option.ext
  intro x
  have value : W.value? document = some x ↔ W.read? document = some x.raw := by
    cases read : W.read? document <;> simp [value?, read, Fixed.ext_iff]
  rw [value, h.read?_eq_some_iff ne, Json.read?_eq_some_iff]

theorem Standard.writeMany_eq (h : W.Standard) (values : List (Fixed F)) :
    W.writeMany (values.map Fixed.raw) = Json.writeMany values := by
  obtain ⟨texts, whole, each⟩ := h.written (values.map Fixed.raw)
  have numerals : List.Forall₂ (fun cs w => cs = Numeral.ofInt w.toInt) texts
      (values.map Fixed.raw) :=
    each.imp fun _ _ spelled => spelled.1.eq_ofInt spelled.2
  have same : texts = values.map fun x => Numeral.ofInt x.raw.toInt := by
    rw [← List.forall₂_eq_eq_eq, List.forall₂_map_right_iff]
    rwa [List.forall₂_map_right_iff] at numerals
  rw [← String.toList_inj, whole, Json.toList_writeMany, same]

theorem Standard.value?_eq_none (h : W.Standard) {document : String}
    (malformed : Malformed (strip document.toList)) (ne : strip document.toList ≠ ['-', '0']) :
    (W.value? document : Option (Fixed F)) = none := by
  rw [h.value?_eq_read? ne]
  apply Option.eq_none_iff_forall_ne_some.2
  intro x read
  exact malformed.ne_ofInt x.raw.le_toInt x.raw.toInt_lt (Json.read?_eq_some_iff.1 read)

theorem Standard.exists_value?_iff (h : W.Standard) {document : String}
    (ne : strip document.toList ≠ ['-', '0']) {r : Int} :
    (∃ x : Fixed F, W.value? document = some x ∧ x.raw.toInt = r) ↔
      strip document.toList = Numeral.ofInt r ∧ -2 ^ 31 ≤ r ∧ r < 2 ^ 31 := by
  rw [h.value?_eq_read? ne]
  constructor
  · rintro ⟨x, read, rfl⟩
    exact ⟨Json.read?_eq_some_iff.1 read, x.raw.le_toInt, x.raw.toInt_lt⟩
  · rintro ⟨numeral, low, high⟩
    have word : (⟨Int32.ofInt r⟩ : Fixed F).raw.toInt = r := Int32.toInt_ofInt_of_le low high
    refine ⟨⟨Int32.ofInt r⟩, ?_, word⟩
    rw [Json.read?_eq_some_iff, numeral, word]

theorem Standard.value?_write (h : W.Standard) (x : Fixed F) : W.value? (write x) = some x := by
  have content := Json.strip_write x
  rw [h.value?_eq_read? (content ▸ Json.ofInt_ne_minusZero _), Json.read?_eq_some_iff, content]

end DocumentForm

/-- **A document is the numeral of a word.** Whatever reads and writes words as JSON has it takes a
document exactly if the text between its blanks is the numeral of an integer in range, and then
for the value with that word. Each element of a written list is such a document. -/
theorem documents_are_numerals {F : Nat} {W : DocumentForm} (h : W.Standard) :
    (∀ document : String, strip document.toList ≠ ['-', '0'] →
      (∀ r : Int, (∃ x : Fixed F, W.value? document = some x ∧ x.raw.toInt = r) ↔
        strip document.toList = Numeral.ofInt r ∧ -2 ^ 31 ≤ r ∧ r < 2 ^ 31) ∧
      (Malformed (strip document.toList) → (W.value? document : Option (Fixed F)) = none) ∧
      W.value? document = (Json.read? document : Option (Fixed F))) ∧
    ∀ values : List (Fixed F), values ≠ [] →
      W.writeMany (values.map Fixed.raw) = Json.writeMany values ∧
      (elements (W.writeMany (values.map Fixed.raw))).map W.value? = values.map some := by
  constructor
  · intro document ne
    exact ⟨fun _ => h.exists_value?_iff ne, fun malformed => h.value?_eq_none malformed ne,
      h.value?_eq_read? ne⟩
  · intro values ne
    refine ⟨h.writeMany_eq values, ?_⟩
    rw [h.writeMany_eq, Json.elements_writeMany ne, List.map_map]
    exact List.map_congr_left fun x _ => h.value?_write x

/-- The least word is read with blanks around it, and the integer one beyond the greatest is not.
Both ends of the range come back out of a list. -/
theorem documents_are_numerals_at_limits :
    let W := Json.words
    let values : List (Fixed 31) := [.minValue, .zero, .maxValue]
    W.value? " \t-2147483648\r\n" = some (.minValue : Fixed 31) ∧
      (W.value? "2147483648" : Option (Fixed 31)) = none ∧
      (W.value? "1.0" : Option (Fixed 31)) = none ∧
      (elements (W.writeMany (values.map Fixed.raw))).map W.value? = values.map some := by
  intro W values
  obtain ⟨documents, lists⟩ := documents_are_numerals (F := 31) Json.words_standard
  obtain ⟨taken, -⟩ := documents " \t-2147483648\r\n" (by decide)
  obtain ⟨-, beyond, -⟩ := documents "2147483648" (by decide)
  obtain ⟨-, fraction, -⟩ := documents "1.0" (by decide)
  obtain ⟨x, read, word⟩ := (taken (-2147483648)).2 ⟨by decide, by decide, by decide⟩
  have least : x = .minValue := Fixed.ext (Int32.toInt_inj.1 word)
  have numeral : strip "2147483648".toList = Numeral.ofInt 2147483648 := by decide
  refine ⟨least ▸ read, beyond ?_, fraction ?_, (lists values (by decide)).2⟩
  · rw [numeral]
    exact .outOfRange (by decide)
  · exact .foreign '.' (by decide) (by decide) (by decide)

end FixedPoint.Serial
