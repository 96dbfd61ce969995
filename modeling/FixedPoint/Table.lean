import FixedPoint.Error
import FixedPoint.Fixed.Basic
import FixedPoint.Word.Codec

/-!
# Tables of packed words

A table is kept in memory as consecutive packed words, without regard to the width of the format.
Storing and loading work on the front of a buffer that the caller owns. What lies behind the front
keeps its contents, and a refused request changes nothing, whatever the codec of the words.
-/

namespace FixedPoint.Table

open Word (byteCount)

variable {F : Nat} {C : Word.Codec}

/-- The chunks of the bytes with the values written to them, the first to the first. -/
def pack (C : Word.Codec) (values : List (Fixed F)) (bytes : List UInt8) : List UInt8 :=
  (List.zipWith (fun c x => C.write x.raw c) (Word.chunks bytes) values).flatMap Word.Chunk.bytes

/-- The values of the packed words. An incomplete word at the end is dropped. -/
def decode (C : Word.Codec) (bytes : List UInt8) : List (Fixed F) :=
  (Word.chunks bytes).map fun c => ⟨C.read c⟩

/-- Packs the values into the front of the buffer. Gives the number of bytes written and the buffer
afterwards. Sizes are plain numbers: no list in memory is so long that its bytes could not be
counted in 64 bits. -/
def storeWith (C : Word.Codec) (values : List (Fixed F)) (buffer : List UInt8) :
    Except Error Nat × List UInt8 :=
  let needed := byteCount * values.length
  if buffer.length < needed then (.error (.bufferTooSmall needed buffer.length), buffer)
  else (.ok needed, pack C values (buffer.take needed) ++ buffer.drop needed)

/-- Unpacks all the bytes into the front of the slots. Gives the number of values read and the
slots afterwards. Bytes that are not whole words are refused before the slots are counted. -/
def loadWith (C : Word.Codec) (bytes : List UInt8) (slots : List (Fixed F)) :
    Except Error Nat × List (Fixed F) :=
  if bytes.length % byteCount ≠ 0 then (.error (.unalignedLength bytes.length), slots)
  else
    let count := bytes.length / byteCount
    if slots.length < count then (.error (.bufferTooSmall count slots.length), slots)
    else (.ok count, decode C bytes ++ slots.drop count)

/-- Storing with the least significant byte first. -/
def store : List (Fixed F) → List UInt8 → Except Error Nat × List UInt8 := storeWith .littleEndian

/-- Loading with the least significant byte first. -/
def load : List UInt8 → List (Fixed F) → Except Error Nat × List (Fixed F) :=
  loadWith .littleEndian

/-- Behind a new front a list is as it was. -/
theorem getElem?_behind {α : Type} {front : List α} {k i : Nat} (size : front.length = k)
    (old : List α) (behind : k ≤ i) : (front ++ old.drop k)[i]? = old[i]? := by
  rw [List.getElem?_append_right (by rwa [size]), size, List.getElem?_drop,
    Nat.add_sub_of_le behind]

theorem length_pack {values : List (Fixed F)} {bytes : List UInt8}
    (size : bytes.length = byteCount * values.length) :
    (pack C values bytes).length = byteCount * values.length := by
  rw [pack, Word.length_flatMap_bytes, List.length_zipWith, Word.length_chunks, size,
    Nat.mul_div_cancel_left _ (by decide), Nat.min_self]

@[simp] theorem length_decode (C : Word.Codec) (bytes : List UInt8) :
    (decode C bytes : List (Fixed F)).length = bytes.length / byteCount := by
  rw [decode, List.length_map, Word.length_chunks]

theorem storeWith_of_lt {values : List (Fixed F)} {buffer : List UInt8}
    (h : buffer.length < byteCount * values.length) :
    storeWith C values buffer =
      (.error (.bufferTooSmall (byteCount * values.length) buffer.length), buffer) :=
  if_pos h

theorem storeWith_of_le {values : List (Fixed F)} {buffer : List UInt8}
    (h : byteCount * values.length ≤ buffer.length) :
    storeWith C values buffer =
      (.ok (byteCount * values.length),
        pack C values (buffer.take (byteCount * values.length)) ++
          buffer.drop (byteCount * values.length)) :=
  if_neg (Nat.not_lt.2 h)

/-- All that a request to load can come to. -/
theorem loadWith_cases (C : Word.Codec) (bytes : List UInt8) (slots : List (Fixed F)) :
    bytes.length % byteCount ≠ 0 ∧
      loadWith C bytes slots = (.error (.unalignedLength bytes.length), slots) ∨
    bytes.length % byteCount = 0 ∧ slots.length < bytes.length / byteCount ∧
      loadWith C bytes slots =
        (.error (.bufferTooSmall (bytes.length / byteCount) slots.length), slots) ∨
    bytes.length % byteCount = 0 ∧ bytes.length / byteCount ≤ slots.length ∧
      loadWith C bytes slots =
        (.ok (bytes.length / byteCount),
          decode C bytes ++ slots.drop (bytes.length / byteCount)) := by
  unfold loadWith
  by_cases whole : bytes.length % byteCount = 0
  · rw [if_neg (not_not_intro whole)]
    rcases Nat.lt_or_ge slots.length (bytes.length / byteCount) with short | room
    · exact .inr (.inl ⟨whole, short, if_pos short⟩)
    · exact .inr (.inr ⟨whole, room, if_neg (Nat.not_lt.2 room)⟩)
  · exact .inl ⟨whole, if_pos whole⟩

theorem loadWith_of_le {bytes : List UInt8} {slots : List (Fixed F)}
    (whole : bytes.length % byteCount = 0) (h : bytes.length / byteCount ≤ slots.length) :
    loadWith C bytes slots =
      (.ok (bytes.length / byteCount),
        decode C bytes ++ slots.drop (bytes.length / byteCount)) := by
  rcases loadWith_cases C bytes slots with ⟨unaligned, -⟩ | ⟨-, short, -⟩ | ⟨-, -, loaded⟩
  · exact absurd whole unaligned
  · omega
  · exact loaded

theorem fst_storeWith_eq_error_iff {values : List (Fixed F)} {buffer : List UInt8} {e : Error} :
    (storeWith C values buffer).1 = .error e ↔
      buffer.length < byteCount * values.length ∧
        e = .bufferTooSmall (byteCount * values.length) buffer.length := by
  rcases Nat.lt_or_ge buffer.length (byteCount * values.length) with short | room
  · simp [storeWith_of_lt short, short, eq_comm]
  · simp [storeWith_of_le room, Nat.not_lt.2 room]

/-- A buffer suffices exactly if it has a byte for each byte of the packed table. -/
theorem exists_fst_storeWith_eq_ok_iff {values : List (Fixed F)} {buffer : List UInt8} :
    (∃ n, (storeWith C values buffer).1 = .ok n) ↔ byteCount * values.length ≤ buffer.length := by
  rcases Nat.lt_or_ge buffer.length (byteCount * values.length) with short | room
  · simp [storeWith_of_lt short, short]
  · simp [storeWith_of_le room, room]

/-- A refused request changes nothing. -/
theorem snd_storeWith_of_error {values : List (Fixed F)} {buffer : List UInt8} {e : Error}
    (refused : (storeWith C values buffer).1 = .error e) :
    (storeWith C values buffer).2 = buffer := by
  rw [storeWith_of_lt (fst_storeWith_eq_error_iff.1 refused).1]

theorem fst_loadWith_eq_error_iff {bytes : List UInt8} {slots : List (Fixed F)} {e : Error} :
    (loadWith C bytes slots).1 = .error e ↔
      bytes.length % byteCount ≠ 0 ∧ e = .unalignedLength bytes.length ∨
      bytes.length % byteCount = 0 ∧ slots.length < bytes.length / byteCount ∧
        e = .bufferTooSmall (bytes.length / byteCount) slots.length := by
  rcases loadWith_cases C bytes slots with ⟨unaligned, h⟩ | ⟨whole, short, h⟩ | ⟨whole, room, h⟩
  · simp [h, unaligned, eq_comm]
  · simp [h, whole, short, eq_comm]
  · simp [h, whole, Nat.not_lt.2 room]

/-- Slots suffice for whole words exactly if there is one for each of them. -/
theorem exists_fst_loadWith_eq_ok_iff {bytes : List UInt8} {slots : List (Fixed F)}
    (whole : bytes.length % byteCount = 0) :
    (∃ n, (loadWith C bytes slots).1 = .ok n) ↔ bytes.length / byteCount ≤ slots.length := by
  rcases loadWith_cases C bytes slots with ⟨unaligned, -⟩ | ⟨-, short, h⟩ | ⟨-, room, h⟩
  · exact absurd whole unaligned
  · simp [h, short]
  · simp [h, room]

theorem snd_loadWith_of_error {bytes : List UInt8} {slots : List (Fixed F)} {e : Error}
    (refused : (loadWith C bytes slots).1 = .error e) : (loadWith C bytes slots).2 = slots := by
  rcases loadWith_cases C bytes slots with ⟨-, h⟩ | ⟨-, -, h⟩ | ⟨-, -, h⟩
  · rw [h]
  · rw [h]
  · simp [h] at refused

/-- A buffer keeps its size. -/
theorem length_snd_storeWith (C : Word.Codec) (values : List (Fixed F)) (buffer : List UInt8) :
    (storeWith C values buffer).2.length = buffer.length := by
  rcases Nat.lt_or_ge buffer.length (byteCount * values.length) with h | h
  · rw [storeWith_of_lt h]
  · rw [storeWith_of_le h, List.length_append, length_pack (List.length_take_of_le h),
      List.length_drop, Nat.add_sub_of_le h]

theorem length_snd_loadWith (C : Word.Codec) (bytes : List UInt8) (slots : List (Fixed F)) :
    (loadWith C bytes slots).2.length = slots.length := by
  rcases loadWith_cases C bytes slots with ⟨-, h⟩ | ⟨-, -, h⟩ | ⟨-, room, h⟩
  · rw [h]
  · rw [h]
  · rw [h, List.length_append, length_decode, List.length_drop, Nat.add_sub_of_le room]

/-- What a request to store does not cover keeps its contents, also when the request is refused. -/
theorem getElem?_snd_storeWith_behind (C : Word.Codec) (values : List (Fixed F))
    (buffer : List UInt8) {i : Nat} (behind : byteCount * values.length ≤ i) :
    (storeWith C values buffer).2[i]? = buffer[i]? := by
  rcases Nat.lt_or_ge buffer.length (byteCount * values.length) with short | room
  · rw [storeWith_of_lt short]
  · rw [storeWith_of_le room]
    exact getElem?_behind (length_pack (List.length_take_of_le room)) buffer behind

theorem getElem?_snd_loadWith_behind (C : Word.Codec) (bytes : List UInt8)
    (slots : List (Fixed F)) {i : Nat} (behind : bytes.length / byteCount ≤ i) :
    (loadWith C bytes slots).2[i]? = slots[i]? := by
  rcases loadWith_cases C bytes slots with ⟨-, h⟩ | ⟨-, -, h⟩ | ⟨-, -, h⟩
  · rw [h]
  · rw [h]
  · rw [h]
    exact getElem?_behind (length_decode C bytes) slots behind

end FixedPoint.Table
