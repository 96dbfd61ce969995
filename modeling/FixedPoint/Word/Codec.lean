import FixedPoint.Word.Chunk

/-!
# Words as bytes

How the bytes of a chunk stand for a word is a parameter: what works on tables of words is given a
`Codec`. A little-endian codec cuts a word into bytes and joins them again without loss.
-/

namespace FixedPoint.Word

/-- How words are packed. Writing is given the chunk that the word takes the place of. -/
structure Codec where
  write : Int32 → Chunk → Chunk
  read : Chunk → Int32

/-- The bytes are those of the word in two's complement, the lowest first: the digits in base 256 of
its unsigned reading. -/
structure Codec.LittleEndian (C : Codec) : Prop where
  write : ∀ w old, (C.write w old).toNat = w.toUInt32.toNat
  read : ∀ c, (C.read c).toUInt32.toNat = c.toNat

/-- The codec that cuts and joins words by shifts. -/
def Codec.littleEndian : Codec where
  write w _ :=
    let u := w.toUInt32
    ⟨u.toUInt8, (u >>> 8).toUInt8, (u >>> 16).toUInt8, (u >>> 24).toUInt8⟩
  read c :=
    (c.b₀.toUInt32 + c.b₁.toUInt32 <<< 8 + c.b₂.toUInt32 <<< 16 + c.b₃.toUInt32 <<< 24).toInt32

theorem toNat_toUInt32_inj {w v : Int32} : w.toUInt32.toNat = v.toUInt32.toNat ↔ w = v := by
  rw [UInt32.toNat_inj]
  constructor
  · intro same
    rw [← Int32.toInt32_toUInt32 w, same, Int32.toInt32_toUInt32]
  · rintro rfl
    rfl

namespace Codec.LittleEndian

variable {C : Codec} (h : C.LittleEndian)
include h

theorem write_congr (w : Int32) (old other : Chunk) : C.write w old = C.write w other := by
  rw [← Chunk.toNat_inj, h.write, h.write]

theorem read_write (w : Int32) (old : Chunk) : C.read (C.write w old) = w := by
  rw [← toNat_toUInt32_inj, h.read, h.write]

theorem write_read (c old : Chunk) : C.write (C.read c) old = c := by
  rw [← Chunk.toNat_inj, h.write, h.read]

end Codec.LittleEndian

theorem Codec.littleEndian_lawful : littleEndian.LittleEndian where
  write w old := by
    have bound := w.toUInt32.toNat_lt
    simp only [littleEndian, Chunk.toNat, UInt32.toNat_toUInt8, UInt32.toNat_shiftRight,
      UInt32.reduceToNat, Nat.reduceMod, Nat.shiftRight_eq_div_pow]
    omega
  read c := by
    have h₀ := c.b₀.toNat_lt
    have h₁ := c.b₁.toNat_lt
    have h₂ := c.b₂.toNat_lt
    have h₃ := c.b₃.toNat_lt
    simp only [littleEndian, Chunk.toNat, UInt32.toUInt32_toInt32, UInt32.toNat_add,
      UInt32.toNat_shiftLeft, UInt8.toNat_toUInt32, UInt32.reduceToNat, Nat.reduceMod,
      Nat.shiftLeft_eq]
    omega

/-- The byte at a position of the packed form: the eight bits of the word from bit `8 * j` on. -/
def byte (w : Int32) (j : Nat) : UInt8 := (w.toUInt32 >>> UInt32.ofNat (8 * j) &&& 0xFF).toUInt8

/-- The number that bytes stand for, the least significant byte first. The sign is that of the most
significant byte. -/
def signed : List UInt8 → Int
  | [] => 0
  | [top] => top.toInt8.toInt
  | low :: rest => low.toNat + 256 * signed rest

theorem toNat_byte (w : Int32) {j : Nat} (h : j < byteCount) :
    (byte w j).toNat = w.toUInt32.toNat >>> (8 * j) % 256 := by
  have low (u : UInt32) : (u &&& 0xFF).toUInt8 = u.toUInt8 := by
    rw [UInt32.toUInt8_and]
    exact UInt8.and_neg_one
  have shift : (UInt32.ofNat (8 * j)).toNat % 32 = 8 * j := by
    rw [byteCount] at h
    rw [UInt32.toNat_ofNat']
    omega
  rw [byte, low, UInt32.toNat_toUInt8, UInt32.toNat_shiftRight, shift]

theorem Chunk.getElem?_bytes {c : Chunk} {w : Int32} (digits : c.toNat = w.toUInt32.toNat) {j : Nat}
    (h : j < byteCount) : c.bytes[j]? = some (byte w j) := by
  obtain ⟨c₀, c₁, c₂, c₃⟩ := c.toNat_digits
  have bound := w.toUInt32.toNat_lt
  have place := toNat_byte w h
  rw [← digits] at place bound
  have found (b : UInt8) (same : b.toNat = (byte w j).toNat) : some b = some (byte w j) := by
    rw [UInt8.toNat_inj.1 same]
  have positions : j = 0 ∨ j = 1 ∨ j = 2 ∨ j = 3 := by
    rw [byteCount] at h
    omega
  rcases positions with rfl | rfl | rfl | rfl
  · apply found c.b₀
    omega
  · apply found c.b₁
    omega
  · apply found c.b₂
    omega
  · apply found c.b₃
    omega

theorem toInt_toInt8 (b : UInt8) :
    b.toInt8.toInt = if 2 * b.toNat < 256 then (b.toNat : Int) else b.toNat - 256 := by
  rw [← Int8.toInt_toBitVec, UInt8.toBitVec_toInt8]
  exact BitVec.toInt_eq_toNat_cond b.toBitVec

theorem toInt_eq_unsigned (w : Int32) :
    w.toInt = if 2 * w.toUInt32.toNat < 4294967296 then (w.toUInt32.toNat : Int)
      else w.toUInt32.toNat - 4294967296 := by
  rw [← Int32.toInt_toBitVec]
  exact BitVec.toInt_eq_toNat_cond w.toBitVec

/-- The word of a chunk has the sign of the highest byte. -/
theorem toInt_eq_signed {c : Chunk} {w : Int32} (digits : w.toUInt32.toNat = c.toNat) :
    w.toInt = signed c.bytes := by
  have h₀ := c.b₀.toNat_lt
  have h₁ := c.b₁.toNat_lt
  have h₂ := c.b₂.toNat_lt
  have h₃ := c.b₃.toNat_lt
  have joined : signed c.bytes =
      c.b₀.toNat + 256 * (c.b₁.toNat + 256 * (c.b₂.toNat + 256 * c.b₃.toInt8.toInt)) := rfl
  rw [toInt_eq_unsigned, digits, joined, toInt_toInt8, Chunk.toNat]
  split <;> split <;> omega

end FixedPoint.Word
