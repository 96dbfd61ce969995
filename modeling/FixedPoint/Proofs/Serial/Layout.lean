import FixedPoint.Proofs.Table.RoundTrip
import FixedPoint.Serial.Binary

namespace FixedPoint.Serial

open Fixed (one minValue)
open Table (storeWith loadWith encode decode)
open Word (byteCount bytes_induction)

/-- A serial form of words: the bytes of a word, and the first word of a string with the bytes
behind it. -/
structure WordForm where
  write : Int32 → List UInt8
  read? : List UInt8 → Option (Int32 × List UInt8)

/-- A word has four bytes, the digits in base 256 of its unsigned reading, the lowest first. What is
written is read back, and fewer bytes are no word. -/
structure WordForm.LittleEndian (W : WordForm) : Prop where
  digits : ∀ w, ∃ c : Word.Chunk, W.write w = c.bytes ∧ c.toNat = w.toUInt32.toNat
  read_write : ∀ w rest, W.read? (W.write w ++ rest) = some (w, rest)
  short : ∀ bytes, bytes.length < byteCount → W.read? bytes = none

/-- The binary form of values, taken for words. The width has no part in it. -/
def Binary.words : WordForm where
  write w := Binary.write (⟨w⟩ : Fixed 0)
  read? bytes := (Binary.read? bytes : Option (Fixed 0 × List UInt8)).map fun p => (p.1.raw, p.2)

/-- The serial forms of the values, one behind another. -/
def WordForm.writeMany {F : Nat} (W : WordForm) (values : List (Fixed F)) : List UInt8 :=
  values.flatMap fun x => W.write x.raw

/-- The first `n` values, read one after another, and the bytes behind them. -/
def WordForm.readMany? {F : Nat} (W : WordForm) :
    Nat → List UInt8 → Option (List (Fixed F) × List UInt8)
  | 0, bytes => some ([], bytes)
  | n + 1, bytes => do
    let (w, rest) ← W.read? bytes
    let (values, rest) ← W.readMany? n rest
    return (⟨w⟩ :: values, rest)

theorem Binary.read?_of_short {F : Nat} {bytes : List UInt8} (short : bytes.length < byteCount) :
    (Binary.read? bytes : Option (Fixed F × List UInt8)) = none := by
  unfold Binary.read?
  split
  · simp only [List.length_cons, byteCount] at short
    omega
  · rfl

/-- The binary form is such a form of words. -/
theorem Binary.words_littleEndian : Binary.words.LittleEndian := by
  have digits : ∀ w, ∃ c : Word.Chunk, Binary.words.write w = c.bytes ∧
      c.toNat = w.toUInt32.toNat := by
    intro w
    have bound := w.toUInt32.toNat_lt
    refine ⟨⟨UInt8.ofNat w.toUInt32.toNat, UInt8.ofNat (w.toUInt32.toNat / 256),
      UInt8.ofNat (w.toUInt32.toNat / 256 / 256),
      UInt8.ofNat (w.toUInt32.toNat / 256 / 256 / 256)⟩, rfl, ?_⟩
    simp only [Word.Chunk.toNat, UInt8.toNat_ofNat']
    omega
  refine ⟨digits, ?_, ?_⟩
  · intro w rest
    obtain ⟨c, written, reading⟩ := digits w
    have word : Int32.ofNat c.toNat = w := by
      rw [← Word.toNat_toUInt32_inj, Int32.toUInt32_ofNat', UInt32.toNat_ofNat', reading]
      exact Nat.mod_eq_of_lt w.toUInt32.toNat_lt
    have read : Binary.words.read? (c.bytes ++ rest) = some (Int32.ofNat c.toNat, rest) := rfl
    rw [written, read, word]
  · intro bytes short
    simp only [Binary.words, Binary.read?_of_short short, Option.map_none]

variable {F : Nat} {C : Word.Codec} {W : WordForm}

namespace WordForm.LittleEndian

theorem write_eq (hW : W.LittleEndian) (h : C.LittleEndian) (w : Int32) (old : Word.Chunk) :
    W.write w = (C.write w old).bytes := by
  obtain ⟨c, written, reading⟩ := hW.digits w
  rw [← h.write w old, Word.Chunk.toNat_inj] at reading
  rw [written, reading]

theorem read?_bytes_append (hW : W.LittleEndian) (h : C.LittleEndian) (c : Word.Chunk)
    (rest : List UInt8) : W.read? (c.bytes ++ rest) = some (C.read c, rest) := by
  have taken := hW.read_write (C.read c) rest
  rwa [hW.write_eq h (C.read c) c, h.write_read] at taken

theorem writeMany_eq_encode (hW : W.LittleEndian) (h : C.LittleEndian)
    (values : List (Fixed F)) : W.writeMany values = encode C values := by
  have word : (fun x : Fixed F => W.write x.raw) = fun x => (C.write x.raw .blank).bytes :=
    funext fun x => hW.write_eq h x.raw .blank
  rw [writeMany, encode, word, List.flatMap_map]

theorem readMany?_bytes_append (hW : W.LittleEndian) (h : C.LittleEndian) (n : Nat)
    (c : Word.Chunk) (rest : List UInt8) :
    (W.readMany? (n + 1) (c.bytes ++ rest) : Option (List (Fixed F) × List UInt8)) =
      (W.readMany? n rest).map fun p => (⟨C.read c⟩ :: p.1, p.2) := by
  rw [readMany?, hW.read?_bytes_append h, Option.map_eq_bind]
  rfl

theorem readMany?_of_le (hW : W.LittleEndian) (h : C.LittleEndian) {n : Nat}
    {bytes : List UInt8} (whole : n ≤ bytes.length / byteCount) :
    (W.readMany? n bytes : Option (List (Fixed F) × List UInt8)) =
      some ((decode C bytes).take n, bytes.drop (byteCount * n)) := by
  induction bytes using bytes_induction generalizing n with
  | short bytes short =>
    rw [Nat.div_eq_of_lt short, Nat.le_zero] at whole
    rw [whole]
    rfl
  | chunk c rest ih =>
    rw [Word.length_bytes_append, Nat.add_div_right _ (by decide)] at whole
    cases n with
    | zero => rfl
    | succ n =>
      have later := ih (Nat.le_of_succ_le_succ whole)
      have behind : (c.bytes ++ rest).drop (byteCount * (n + 1)) = rest.drop (byteCount * n) := by
        rw [Nat.mul_succ, Nat.add_comm, ← List.drop_drop]
        rfl
      rw [hW.readMany?_bytes_append h, later, behind]
      rfl

theorem readMany?_of_lt (hW : W.LittleEndian) (h : C.LittleEndian) {n : Nat}
    {bytes : List UInt8} (more : bytes.length / byteCount < n) :
    (W.readMany? n bytes : Option (List (Fixed F) × List UInt8)) = none := by
  induction bytes using bytes_induction generalizing n with
  | short bytes short =>
    obtain ⟨n, rfl⟩ := Nat.exists_eq_add_one_of_ne_zero (Nat.ne_of_gt (Nat.zero_lt_of_lt more))
    rw [readMany?, hW.short bytes short]
    rfl
  | chunk c rest ih =>
    rw [Word.length_bytes_append, Nat.add_div_right _ (by decide)] at more
    obtain ⟨n, rfl⟩ := Nat.exists_eq_add_one_of_ne_zero (Nat.ne_of_gt (Nat.zero_lt_of_lt more))
    rw [hW.readMany?_bytes_append h, ih (Nat.lt_of_succ_lt_succ more), Option.map_none]

theorem exists_readMany?_iff (hW : W.LittleEndian) (h : C.LittleEndian) {n : Nat}
    {bytes : List UInt8} :
    (∃ p : List (Fixed F) × List UInt8, W.readMany? n bytes = some p) ↔
      n ≤ bytes.length / byteCount := by
  rcases Nat.lt_or_ge (bytes.length / byteCount) n with more | whole
  · simp [hW.readMany?_of_lt h more, more]
  · simp [hW.readMany?_of_le h whole, whole]

end WordForm.LittleEndian

/-- Loading the whole words of a string. -/
theorem loadWith_take_whole (C : Word.Codec) (bytes : List UInt8) {slots : List (Fixed F)}
    (room : bytes.length / byteCount ≤ slots.length) :
    loadWith C (bytes.take (byteCount * (bytes.length / byteCount))) slots =
      (.ok (bytes.length / byteCount),
        decode C bytes ++ slots.drop (bytes.length / byteCount)) := by
  have size : (bytes.take (byteCount * (bytes.length / byteCount))).length =
      byteCount * (bytes.length / byteCount) := List.length_take_of_le (Nat.mul_div_le _ _)
  have count : (bytes.take (byteCount * (bytes.length / byteCount))).length / byteCount =
      bytes.length / byteCount := by
    rw [size, Nat.mul_div_cancel_left _ (by decide)]
  rw [Table.loadWith_of_le (by rw [size, Nat.mul_mod_right]) (by rwa [count]), count,
    Table.decode_take_whole]

/-- **Tables and serial values have one layout.** Whatever writes a word as its four bytes, the
lowest first, writes for a list of values the bytes that storing the list writes. Reading values one
after another goes on for as many words as are whole, gives the values that loading those words
gives, and stops at an incomplete one. -/
theorem layouts_agree (h : C.LittleEndian) (hW : W.LittleEndian) :
    (∀ (values : List (Fixed F)) (buffer : List UInt8),
      byteCount * values.length ≤ buffer.length →
      ∃ buffer', storeWith C values buffer = (.ok (W.writeMany values).length, buffer') ∧
        buffer'.take (W.writeMany values).length = W.writeMany values) ∧
    ∀ bytes : List UInt8,
      (∀ n, (∃ p : List (Fixed F) × List UInt8, W.readMany? n bytes = some p) ↔
        n ≤ bytes.length / byteCount) ∧
      W.read? (bytes.drop (byteCount * (bytes.length / byteCount))) = none ∧
      ∀ slots : List (Fixed F), bytes.length / byteCount ≤ slots.length →
        ∃ slots', loadWith C (bytes.take (byteCount * (bytes.length / byteCount))) slots =
            (.ok (bytes.length / byteCount), slots') ∧
          ∀ n ≤ bytes.length / byteCount,
            W.readMany? n bytes = some (slots'.take n, bytes.drop (byteCount * n)) := by
  refine ⟨?_, fun bytes => ⟨fun n => hW.exists_readMany?_iff h, ?_, ?_⟩⟩
  · intro values buffer room
    refine ⟨(storeWith C values buffer).2, ?_, ?_⟩
    · rw [hW.writeMany_eq_encode h, Table.length_encode, Table.storeWith_of_le room]
    · rw [hW.writeMany_eq_encode h, Table.length_encode, Table.take_snd_storeWith h room]
  · apply hW.short
    rw [List.length_drop, ← Nat.mod_eq_sub_mul_div]
    exact Nat.mod_lt _ (by decide)
  · intro slots room
    refine ⟨_, loadWith_take_whole C bytes room, ?_⟩
    intro n whole
    rw [hW.readMany?_of_le h whole, List.take_append_of_le_length (by rwa [Table.length_decode])]

/-- Two bytes are left behind two words. Loading takes the two words alone, and reading a third one
fails. -/
theorem layouts_agree_truncated :
    let C : Word.Codec := .littleEndian
    let W : WordForm := Binary.words
    let bytes : List UInt8 := [0xFF, 0xFF, 0xFF, 0xFF, 0, 0, 8, 0, 7, 7]
    let values : List (Fixed 19) := [⟨-1⟩, one]
    W.writeMany values = bytes.take 8 ∧
      (∃ buffer', storeWith C values (List.replicate 9 0xAA) = (.ok 8, buffer') ∧
        buffer'.take 8 = bytes.take 8) ∧
      (¬∃ p : List (Fixed 19) × List UInt8, W.readMany? 3 bytes = some p) ∧
      W.read? [7, 7] = none ∧
      ∃ slots', loadWith C (bytes.take 8) (List.replicate 3 (minValue : Fixed 19)) =
          (.ok 2, slots') ∧
        W.readMany? 2 bytes = some (slots'.take 2, [7, 7]) := by
  intro C W bytes values
  obtain ⟨stored, taken⟩ :=
    layouts_agree (F := 19) Word.Codec.littleEndian_lawful Binary.words_littleEndian
  obtain ⟨exactly, stops, loaded⟩ := taken bytes
  have count : bytes.length / byteCount = 2 := by decide
  rw [count] at exactly stops loaded
  have written : W.writeMany values = bytes.take 8 := by decide
  have table := stored values (List.replicate 9 0xAA) (by decide)
  rw [written] at table
  obtain ⟨slots', load, read⟩ := loaded (List.replicate 3 minValue) (by decide)
  refine ⟨written, table, ?_, stops, slots', load, read 2 (by decide)⟩
  intro third
  exact absurd ((exactly 3).1 third) (by decide)

end FixedPoint.Serial
