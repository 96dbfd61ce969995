import FixedPoint.Proofs.Table.Packed

namespace FixedPoint.Table

open Fixed (one ofInt minValue)
open Word (byteCount)

variable {F G : Nat} {C : Word.Codec} {values slots : List (Fixed F)} {bytes buffer : List UInt8}

/-- The words that loading leaves in the front of the slots, one for every word of the bytes. -/
def loadedWords (C : Word.Codec) (bytes : List UInt8) (slots : List (Fixed F)) : List Int32 :=
  ((loadWith C bytes slots).2.take (bytes.length / byteCount)).map Fixed.raw

theorem take_snd_storeWith (h : C.LittleEndian)
    (room : byteCount * values.length ≤ buffer.length) :
    (storeWith C values buffer).2.take (byteCount * values.length) = encode C values := by
  rw [storeWith_eq_encode h room]
  exact List.take_left' (length_encode C values)

theorem loadWith_encode (h : C.LittleEndian) (fits : values.length ≤ slots.length) :
    loadWith C (encode C values) slots =
      (.ok values.length, values ++ slots.drop values.length) := by
  have whole : (encode C values).length % byteCount = 0 := by
    rw [length_encode, Nat.mul_mod_right]
  have count : (encode C values).length / byteCount = values.length := by
    rw [length_encode, Nat.mul_div_cancel_left _ (by decide)]
  rw [loadWith_of_le whole (by rwa [count]), count, decode_encode h]

/-- **A table comes back.** What is stored in the front of a buffer and loaded from there again
stands in the front of the slots, value by value. Bytes and slots behind keep their contents. -/
theorem load_store (h : C.LittleEndian) (values : List (Fixed F)) (buffer : List UInt8)
    (slots : List (Fixed F)) (room : byteCount * values.length ≤ buffer.length)
    (fits : values.length ≤ slots.length) :
    ∃ buffer' slots',
      storeWith C values buffer = (.ok (byteCount * values.length), buffer') ∧
      loadWith C (buffer'.take (byteCount * values.length)) slots = (.ok values.length, slots') ∧
      (∀ i < values.length, slots'[i]? = values[i]?) ∧
      (∀ i, values.length ≤ i → slots'[i]? = slots[i]?) ∧
      ∀ i, byteCount * values.length ≤ i → buffer'[i]? = buffer[i]? := by
  refine ⟨(storeWith C values buffer).2, values ++ slots.drop values.length, ?_, ?_, ?_, ?_, ?_⟩
  · rw [storeWith_of_le room]
  · rw [take_snd_storeWith h room, loadWith_encode h fits]
  · intro i inside
    exact List.getElem?_append_left inside
  · intro i behind
    exact getElem?_behind rfl slots behind
  · intro i behind
    exact getElem?_snd_storeWith_behind C values buffer behind

/-- Three values in the front of sixteen bytes, loaded into the front of five slots. -/
theorem load_store_surplus :
    let values : List (Fixed 15) := [one, ⟨-1⟩, ofInt (-3)]
    ∃ buffer' slots',
      storeWith .littleEndian values (List.replicate 16 0xAA) = (.ok 12, buffer') ∧
      loadWith .littleEndian (buffer'.take 12) (List.replicate 5 (minValue : Fixed 15)) =
        (.ok 3, slots') ∧
      slots'[1]? = some ⟨-1⟩ ∧ slots'[2]? = some (ofInt (-3)) ∧ slots'[3]? = some minValue ∧
      buffer'[12]? = some 0xAA := by
  intro values
  obtain ⟨buffer', slots', stored, loaded, front, behind, bytes⟩ :=
    load_store Word.Codec.littleEndian_lawful values (List.replicate 16 0xAA)
      (List.replicate 5 minValue) (by decide) (by decide)
  exact ⟨buffer', slots', stored, loaded, front 1 (by decide), front 2 (by decide),
    behind 3 (by decide), bytes 12 (by decide)⟩

theorem loadedWords_eq (whole : bytes.length % byteCount = 0)
    (room : bytes.length / byteCount ≤ slots.length) :
    loadedWords C bytes slots = (decode C bytes : List (Fixed F)).map Fixed.raw := by
  rw [loadedWords, loadWith_of_le whole room]
  simp only [← length_decode (F := F) C bytes, List.take_left]

/-- Storing the words again, in any format, gives back the bytes. -/
theorem encode_loadedWords (h : C.LittleEndian) (whole : bytes.length % byteCount = 0)
    (room : bytes.length / byteCount ≤ slots.length) :
    encode C ((loadedWords C bytes slots).map Fixed.mk : List (Fixed G)) = bytes := by
  rw [loadedWords_eq whole room, map_raw_decode, encode_decode h whole]

/-- **Every string of whole words is a packed table.** Loading it succeeds, and the words loaded
from it, stored in any format, give the same bytes again. So no two such strings give the same
words. -/
theorem store_loadedWords (h : C.LittleEndian) (bytes : List UInt8) (slots : List (Fixed F))
    (whole : bytes.length % byteCount = 0) (room : bytes.length / byteCount ≤ slots.length) :
    (loadWith C bytes slots).1 = .ok (bytes.length / byteCount) ∧
    (∀ (G : Nat) (buffer : List UInt8), bytes.length ≤ buffer.length →
      ∃ buffer', storeWith C ((loadedWords C bytes slots).map Fixed.mk : List (Fixed G)) buffer =
          (.ok bytes.length, buffer') ∧
        buffer'.take bytes.length = bytes) ∧
    ∀ (G : Nat) (other : List UInt8) (others : List (Fixed G)),
      other.length % byteCount = 0 → other.length / byteCount ≤ others.length →
        loadedWords C other others = loadedWords C bytes slots → other = bytes := by
  refine ⟨by rw [loadWith_of_le whole room], ?_, ?_⟩
  · intro G buffer fits
    have packed := encode_loadedWords (G := G) h whole room
    have needed := length_encode C ((loadedWords C bytes slots).map (Fixed.mk (F := G)))
    rw [packed] at needed
    refine ⟨bytes ++ buffer.drop bytes.length, ?_, List.take_left⟩
    rw [storeWith_eq_encode h (by omega), ← needed, packed]
  · intro G other others whole' room' same
    rw [← encode_loadedWords (G := F) h whole room, ← same, encode_loadedWords h whole' room']

/-- One in a format with nineteen fraction bits, and the least value but one. Another format reads
other numbers from the words and stores the same bytes. Any change of a byte shows in the words. -/
theorem store_loadedWords_reformatted :
    let C : Word.Codec := .littleEndian
    let bytes : List UInt8 := [0, 0, 8, 0, 1, 0, 0, 0x80]
    let slots : List (Fixed 19) := List.replicate 4 minValue
    loadedWords C bytes slots = [524288, -2147483647] ∧
      (∃ buffer', storeWith C ([⟨524288⟩, ⟨-2147483647⟩] : List (Fixed 15))
          (List.replicate 9 0xAA) = (.ok 8, buffer') ∧ buffer'.take 8 = bytes) ∧
      loadedWords C (bytes.set 7 0) slots ≠ [524288, -2147483647] := by
  intro C bytes slots
  have words : loadedWords C bytes slots = [524288, -2147483647] := by decide
  obtain ⟨-, stored, faithful⟩ :=
    store_loadedWords Word.Codec.littleEndian_lawful bytes slots (by decide) (by decide)
  rw [words] at stored faithful
  refine ⟨words, stored 15 (List.replicate 9 0xAA) (by decide), ?_⟩
  intro same
  exact absurd (faithful 19 (bytes.set 7 0) slots (by decide) (by decide) same) (by decide)

end FixedPoint.Table
