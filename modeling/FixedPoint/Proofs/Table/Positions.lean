import FixedPoint.Proofs.Table.RoundTrip
import FixedPoint.Span

namespace FixedPoint.Table

open Fixed (one ofInt)
open Word (byteCount bytes_induction)

variable {F : Nat} {C : Word.Codec} {values slots : List (Fixed F)} {bytes buffer : List UInt8}

/-- The four bytes of the word at a position. -/
def wordSpan (i : Nat) : Span := ⟨byteCount * i, byteCount⟩

theorem getElem?_encode (h : C.LittleEndian) (values : List (Fixed F)) (k : Nat) :
    (encode C values)[k]? =
      values[k / byteCount]?.map fun x => Word.byte x.raw (k % byteCount) := by
  induction values generalizing k with
  | nil => rw [List.getElem?_eq_none (Nat.zero_le _), List.getElem?_eq_none (Nat.zero_le _)]; rfl
  | cons x values ih =>
    rw [encode_cons]
    rcases Nat.lt_or_ge k byteCount with first | later
    · rw [List.getElem?_append_left (by rwa [Word.Chunk.length_bytes]),
        Word.Chunk.getElem?_bytes (h.write x.raw .blank) first, Nat.div_eq_of_lt first,
        Nat.mod_eq_of_lt first]
      rfl
    · obtain ⟨k, rfl⟩ := Nat.exists_eq_add_of_le' later
      rw [List.getElem?_append_right (by rwa [Word.Chunk.length_bytes]), Word.Chunk.length_bytes,
        Nat.add_sub_cancel, ih, Nat.add_div_right k (by decide), Nat.add_mod_right,
        List.getElem?_cons_succ]

theorem slice_wordSpan_succ (c : Word.Chunk) (rest : List UInt8) (i : Nat) :
    (wordSpan (i + 1)).slice (c.bytes ++ rest) = (wordSpan i).slice rest := by
  simp only [wordSpan, Span.slice, Nat.mul_succ, Nat.add_comm (byteCount * i), ← List.drop_drop]
  rfl

theorem getElem?_decode (h : C.LittleEndian) {i : Nat} (inside : i < bytes.length / byteCount) :
    ((decode C bytes : List (Fixed F))[i]?).map (fun x => x.raw.toInt) =
      some (Word.signed ((wordSpan i).slice bytes)) := by
  induction bytes using bytes_induction generalizing i with
  | short bytes short =>
    rw [Nat.div_eq_of_lt short] at inside
    exact absurd inside (Nat.not_lt_zero i)
  | chunk c rest ih =>
    rw [Word.length_bytes_append, Nat.add_div_right _ (by decide)] at inside
    rw [decode, Word.chunks_bytes_append, List.map_cons]
    cases i with
    | zero => exact congrArg some (Word.toInt_eq_signed (h.read c))
    | succ i =>
      rw [List.getElem?_cons_succ, slice_wordSpan_succ]
      exact ih (Nat.lt_of_succ_lt_succ inside)

theorem getElem?_snd_storeWith_front (h : C.LittleEndian)
    (room : byteCount * values.length ≤ buffer.length) {k : Nat}
    (front : k < byteCount * values.length) :
    (storeWith C values buffer).2[k]? =
      values[k / byteCount]?.map fun x => Word.byte x.raw (k % byteCount) := by
  rw [storeWith_eq_encode h room, ← getElem?_encode h]
  exact List.getElem?_append_left (by rwa [length_encode])

/-- **What storing does to every byte.** A buffer with less than four bytes for each value is
refused and left as it was. The error names the least number of bytes that suffices, and what the
buffer has. Otherwise that number is the count of bytes written, each of them eight bits of the
value that it belongs to, the lowest first. No other byte changes. -/
theorem store_by_positions (h : C.LittleEndian) (values : List (Fixed F)) (buffer : List UInt8) :
    (∀ e, (storeWith C values buffer).1 = .error e ↔
      buffer.length < byteCount * values.length ∧
        e = .bufferTooSmall (byteCount * values.length) buffer.length) ∧
    (∀ other : List UInt8, (∃ n, (storeWith C values other).1 = .ok n) ↔
      byteCount * values.length ≤ other.length) ∧
    (∀ e, (storeWith C values buffer).1 = .error e → (storeWith C values buffer).2 = buffer) ∧
    (byteCount * values.length ≤ buffer.length →
      (storeWith C values buffer).1 = .ok (byteCount * values.length) ∧
      (storeWith C values buffer).2.length = buffer.length ∧
      (∀ k < byteCount * values.length, (storeWith C values buffer).2[k]? =
        values[k / byteCount]?.map fun x => Word.byte x.raw (k % byteCount)) ∧
      ∀ k, byteCount * values.length ≤ k → (storeWith C values buffer).2[k]? = buffer[k]?) := by
  refine ⟨fun _ => fst_storeWith_eq_error_iff, fun _ => exists_fst_storeWith_eq_ok_iff,
    fun _ => snd_storeWith_of_error, ?_⟩
  intro room
  refine ⟨by rw [storeWith_of_le room], length_snd_storeWith C values buffer, ?_, ?_⟩
  · intro k front
    exact getElem?_snd_storeWith_front h room front
  · intro k behind
    exact getElem?_snd_storeWith_behind C values buffer behind

/-- Minus three in a format with fifteen fraction bits has ones in its highest byte. Eleven bytes
are one too few for three values, and of fourteen the last two are not written. -/
theorem store_by_positions_negative :
    let C : Word.Codec := .littleEndian
    let values : List (Fixed 15) := [one, ⟨-1⟩, ofInt (-3)]
    let buffer : List UInt8 := List.replicate 14 0xAA
    (storeWith C values (buffer.take 11)).1 = .error (.bufferTooSmall 12 11) ∧
      (storeWith C values (buffer.take 11)).2 = buffer.take 11 ∧
      (storeWith C values buffer).1 = .ok 12 ∧
      (storeWith C values buffer).2[9]? = some 0x80 ∧
      (storeWith C values buffer).2[11]? = some 0xFF ∧
      (storeWith C values buffer).2[12]? = some 0xAA := by
  intro C values buffer
  obtain ⟨refused, -, kept, -⟩ :=
    store_by_positions Word.Codec.littleEndian_lawful values (buffer.take 11)
  obtain ⟨-, -, -, stored⟩ :=
    store_by_positions Word.Codec.littleEndian_lawful values buffer
  have error := (refused (.bufferTooSmall 12 11)).2 ⟨by decide, by decide⟩
  obtain ⟨count, -, front, behind⟩ := stored (by decide)
  exact ⟨error, kept _ error, count, (front 9 (by decide)).trans (by decide),
    (front 11 (by decide)).trans (by decide), (behind 12 (by decide)).trans (by decide)⟩

theorem getElem?_snd_loadWith_front (h : C.LittleEndian) (whole : bytes.length % byteCount = 0)
    (room : bytes.length / byteCount ≤ slots.length) {i : Nat}
    (front : i < bytes.length / byteCount) :
    ((loadWith C bytes slots).2[i]?).map (fun x => x.raw.toInt) =
      some (Word.signed ((wordSpan i).slice bytes)) := by
  rw [loadWith_of_le whole room, List.getElem?_append_left (by rwa [length_decode])]
  exact getElem?_decode h front

/-- **What loading does to every slot.** Bytes that are not whole words are refused as such, however
few slots there are. Whole words are refused if there is no slot for each of them, and the error
names the least number of slots that suffices. A refused request leaves the slots as they were.
Otherwise each slot in front gets the signed reading of its four bytes, the lowest first, and the
slots behind are not changed. -/
theorem load_by_positions (h : C.LittleEndian) (bytes : List UInt8) (slots : List (Fixed F)) :
    (∀ e, (loadWith C bytes slots).1 = .error e ↔
      bytes.length % byteCount ≠ 0 ∧ e = .unalignedLength bytes.length ∨
      bytes.length % byteCount = 0 ∧ slots.length < bytes.length / byteCount ∧
        e = .bufferTooSmall (bytes.length / byteCount) slots.length) ∧
    (bytes.length % byteCount = 0 → ∀ others : List (Fixed F),
      (∃ n, (loadWith C bytes others).1 = .ok n) ↔ bytes.length / byteCount ≤ others.length) ∧
    (∀ e, (loadWith C bytes slots).1 = .error e → (loadWith C bytes slots).2 = slots) ∧
    (bytes.length % byteCount = 0 → bytes.length / byteCount ≤ slots.length →
      (loadWith C bytes slots).1 = .ok (bytes.length / byteCount) ∧
      (loadWith C bytes slots).2.length = slots.length ∧
      (∀ i < bytes.length / byteCount,
        ((loadWith C bytes slots).2[i]?).map (fun x => x.raw.toInt) =
          some (Word.signed ((wordSpan i).slice bytes))) ∧
      ∀ i, bytes.length / byteCount ≤ i → (loadWith C bytes slots).2[i]? = slots[i]?) := by
  refine ⟨fun _ => fst_loadWith_eq_error_iff, fun whole _ => exists_fst_loadWith_eq_ok_iff whole,
    fun _ => snd_loadWith_of_error, ?_⟩
  intro whole room
  refine ⟨by rw [loadWith_of_le whole room], length_snd_loadWith C bytes slots, ?_, ?_⟩
  · intro i front
    exact getElem?_snd_loadWith_front h whole room front
  · intro i behind
    exact getElem?_snd_loadWith_behind C bytes slots behind

/-- The second word is the least one but one. Six bytes are refused as unaligned although there is
no slot for them either, and one slot is too few for the eight. -/
theorem load_by_positions_negative :
    let C : Word.Codec := .littleEndian
    let bytes : List UInt8 := [0, 0, 8, 0, 1, 0, 0, 0x80]
    let slots : List (Fixed 19) := List.replicate 3 one
    (loadWith C (bytes.take 6) (slots.take 0)).1 = .error (.unalignedLength 6) ∧
      (loadWith C bytes (slots.take 1)).1 = .error (.bufferTooSmall 2 1) ∧
      (loadWith C bytes (slots.take 1)).2 = slots.take 1 ∧
      (loadWith C bytes slots).1 = .ok 2 ∧
      ((loadWith C bytes slots).2[1]?).map (fun x => x.raw.toInt) = some (-2147483647) ∧
      (loadWith C bytes slots).2[2]? = some one := by
  intro C bytes slots
  obtain ⟨unaligned, -, -, -⟩ :=
    load_by_positions Word.Codec.littleEndian_lawful (bytes.take 6) (slots.take 0)
  obtain ⟨tooSmall, -, kept, -⟩ :=
    load_by_positions Word.Codec.littleEndian_lawful bytes (slots.take 1)
  obtain ⟨-, -, -, loaded⟩ :=
    load_by_positions Word.Codec.littleEndian_lawful bytes slots
  have error := (tooSmall (.bufferTooSmall 2 1)).2 (.inr ⟨by decide, by decide, by decide⟩)
  have words : bytes.length / byteCount = 2 := by decide
  rw [words] at loaded
  obtain ⟨count, -, front, behind⟩ := loaded (by decide) (by decide)
  exact ⟨(unaligned (.unalignedLength 6)).2 (.inl ⟨by decide, by decide⟩), error, kept _ error,
    count, (front 1 (by decide)).trans (by decide), (behind 2 (by decide)).trans (by decide)⟩

end FixedPoint.Table
