import FixedPoint.Table

namespace FixedPoint.Table

open Word (byteCount)

variable {F G : Nat} {C : Word.Codec} {values : List (Fixed F)} {bytes buffer : List UInt8}

/-- The packed form of the values, in order. -/
def encode (C : Word.Codec) (values : List (Fixed F)) : List UInt8 :=
  (values.map fun x => C.write x.raw .blank).flatMap Word.Chunk.bytes

theorem encode_cons (C : Word.Codec) (x : Fixed F) (values : List (Fixed F)) :
    encode C (x :: values) = (C.write x.raw .blank).bytes ++ encode C values := rfl

theorem encode_append (C : Word.Codec) (values more : List (Fixed F)) :
    encode C (values ++ more) = encode C values ++ encode C more := by
  rw [encode, List.map_append, List.flatMap_append]
  rfl

@[simp] theorem length_encode (C : Word.Codec) (values : List (Fixed F)) :
    (encode C values).length = byteCount * values.length := by
  rw [encode, Word.length_flatMap_bytes, List.length_map]

theorem decode_append (whole : bytes.length % byteCount = 0) (more : List UInt8) :
    (decode C (bytes ++ more) : List (Fixed F)) = decode C bytes ++ decode C more := by
  rw [decode, Word.chunks_append whole, List.map_append]
  rfl

/-- The whole words of a string are all that is taken from it. -/
theorem decode_take_whole (C : Word.Codec) (bytes : List UInt8) :
    (decode C (bytes.take (byteCount * (bytes.length / byteCount))) : List (Fixed F)) =
      decode C bytes := by
  rw [decode, Word.chunks_take_whole]
  rfl

/-- The words of a packed string do not depend on the format. -/
theorem map_raw_decode (C : Word.Codec) (bytes : List UInt8) :
    ((decode C bytes : List (Fixed F)).map Fixed.raw).map Fixed.mk =
      (decode C bytes : List (Fixed G)) := by
  rw [decode, List.map_map, List.map_map]
  rfl

theorem pack_eq_encode (h : C.LittleEndian) (size : bytes.length = byteCount * values.length) :
    pack C values bytes = encode C values := by
  have count : (Word.chunks bytes).length = values.length := by
    rw [Word.length_chunks, size, Nat.mul_div_cancel_left _ (by decide)]
  have written : List.zipWith (fun c x => C.write x.raw c) (Word.chunks bytes) values =
      values.map fun x => C.write x.raw .blank := by
    calc List.zipWith (fun c x => C.write x.raw c) (Word.chunks bytes) values
        = ((Word.chunks bytes).zip values).map fun p => C.write p.2.raw p.1 := by
          rw [List.zip, List.map_zipWith]
      _ = ((Word.chunks bytes).zip values).map fun p => C.write p.2.raw .blank :=
          List.map_congr_left fun p _ => h.write_congr p.2.raw p.1 .blank
      _ = (((Word.chunks bytes).zip values).map Prod.snd).map fun x => C.write x.raw .blank := by
          rw [List.map_map]
          rfl
      _ = values.map fun x => C.write x.raw .blank := by
          rw [List.map_snd_zip (Nat.le_of_eq count.symm)]
  rw [pack, written, encode]

theorem storeWith_eq_encode (h : C.LittleEndian)
    (room : byteCount * values.length ≤ buffer.length) :
    storeWith C values buffer =
      (.ok (byteCount * values.length),
        encode C values ++ buffer.drop (byteCount * values.length)) := by
  rw [storeWith_of_le room, pack_eq_encode h (List.length_take_of_le room)]

theorem decode_encode (h : C.LittleEndian) (values : List (Fixed F)) :
    decode C (encode C values) = values := by
  have word : ((fun c => (⟨C.read c⟩ : Fixed F)) ∘ fun x => C.write x.raw .blank) = id :=
    funext fun x => congrArg Fixed.mk (h.read_write x.raw .blank)
  rw [decode, encode, Word.chunks_flatMap_bytes, List.map_map, word, List.map_id]

theorem encode_decode (h : C.LittleEndian) (whole : bytes.length % byteCount = 0) :
    encode C (decode C bytes : List (Fixed F)) = bytes := by
  have chunk : ((fun x => C.write x.raw .blank) ∘ fun c => (⟨C.read c⟩ : Fixed F)) = id :=
    funext fun c => h.write_read c .blank
  rw [encode, decode, List.map_map, chunk, List.map_id, Word.flatMap_bytes_chunks whole]

end FixedPoint.Table
