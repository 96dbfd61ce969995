/-!
# Chunks of bytes

A packed word takes up a chunk of four bytes. A string of bytes is a row of whole chunks and fewer
than four bytes behind them.
-/

namespace FixedPoint.Word

/-- The number of bytes of a packed word. -/
def byteCount : Nat := 4

/-- The bytes that one packed word takes up, in the order of their addresses. -/
@[ext] structure Chunk where
  b₀ : UInt8
  b₁ : UInt8
  b₂ : UInt8
  b₃ : UInt8
  deriving DecidableEq, Repr

namespace Chunk

/-- The chunk before anything is written to it. -/
def blank : Chunk := ⟨0, 0, 0, 0⟩

def bytes (c : Chunk) : List UInt8 := [c.b₀, c.b₁, c.b₂, c.b₃]

/-- The number whose digits in base 256 are the bytes, the lowest digit first. -/
def toNat (c : Chunk) : Nat :=
  c.b₀.toNat + 256 * (c.b₁.toNat + 256 * (c.b₂.toNat + 256 * c.b₃.toNat))

@[simp] theorem length_bytes (c : Chunk) : c.bytes.length = byteCount := rfl

/-- The bytes are found again in the number. -/
theorem toNat_digits (c : Chunk) :
    c.b₀.toNat = c.toNat % 256 ∧ c.b₁.toNat = c.toNat / 256 % 256 ∧
      c.b₂.toNat = c.toNat / 65536 % 256 ∧ c.b₃.toNat = c.toNat / 16777216 := by
  have h₀ := c.b₀.toNat_lt
  have h₁ := c.b₁.toNat_lt
  have h₂ := c.b₂.toNat_lt
  simp only [toNat]
  omega

theorem toNat_inj {c d : Chunk} : c.toNat = d.toNat ↔ c = d := by
  constructor
  · intro same
    obtain ⟨c₀, c₁, c₂, c₃⟩ := c.toNat_digits
    obtain ⟨d₀, d₁, d₂, d₃⟩ := d.toNat_digits
    rw [same] at c₀ c₁ c₂ c₃
    exact Chunk.ext (UInt8.toNat_inj.1 (c₀.trans d₀.symm)) (UInt8.toNat_inj.1 (c₁.trans d₁.symm))
      (UInt8.toNat_inj.1 (c₂.trans d₂.symm)) (UInt8.toNat_inj.1 (c₃.trans d₃.symm))
  · rintro rfl
    rfl

end Chunk

/-- The whole chunks of a string of bytes, in order. -/
def chunks : List UInt8 → List Chunk
  | b₀ :: b₁ :: b₂ :: b₃ :: rest => ⟨b₀, b₁, b₂, b₃⟩ :: chunks rest
  | _ => []

/-- A string of bytes is shorter than a chunk or begins with one. -/
@[elab_as_elim]
theorem bytes_induction {motive : List UInt8 → Prop}
    (short : ∀ bytes, bytes.length < byteCount → motive bytes)
    (chunk : ∀ (c : Chunk) rest, motive rest → motive (c.bytes ++ rest)) (bytes : List UInt8) :
    motive bytes := by
  match bytes with
  | [] | [_] | [_, _] | [_, _, _] => exact short _ (by simp [byteCount])
  | b₀ :: b₁ :: b₂ :: b₃ :: rest =>
    exact chunk ⟨b₀, b₁, b₂, b₃⟩ rest (bytes_induction short chunk rest)

theorem length_bytes_append (c : Chunk) (rest : List UInt8) :
    (c.bytes ++ rest).length = rest.length + byteCount := by
  rw [List.length_append, Chunk.length_bytes, Nat.add_comm]

theorem chunks_bytes_append (c : Chunk) (rest : List UInt8) :
    chunks (c.bytes ++ rest) = c :: chunks rest := rfl

theorem eq_nil_of_short {bytes : List UInt8} (short : bytes.length < byteCount)
    (whole : bytes.length % byteCount = 0) : bytes = [] := by
  rwa [Nat.mod_eq_of_lt short, List.length_eq_zero_iff] at whole

theorem chunks_of_short {bytes : List UInt8} (short : bytes.length < byteCount) :
    chunks bytes = [] := by
  unfold chunks
  split
  · simp only [List.length_cons, byteCount] at short
    omega
  · rfl

@[simp] theorem length_chunks (bytes : List UInt8) :
    (chunks bytes).length = bytes.length / byteCount := by
  induction bytes using bytes_induction with
  | short bytes short => rw [chunks_of_short short, Nat.div_eq_of_lt short, List.length_nil]
  | chunk c rest ih =>
    rw [chunks_bytes_append, List.length_cons, ih, length_bytes_append,
      Nat.add_div_right _ (by decide)]

@[simp] theorem length_flatMap_bytes (cs : List Chunk) :
    (cs.flatMap Chunk.bytes).length = byteCount * cs.length := by
  induction cs with
  | nil => rfl
  | cons c cs ih =>
    rw [List.flatMap_cons, length_bytes_append, ih, List.length_cons, Nat.mul_succ]

theorem chunks_flatMap_bytes (cs : List Chunk) : chunks (cs.flatMap Chunk.bytes) = cs := by
  induction cs with
  | nil => rfl
  | cons c cs ih => rw [List.flatMap_cons, chunks_bytes_append, ih]

/-- Nothing is lost of a string of whole words. -/
theorem flatMap_bytes_chunks {bytes : List UInt8} (whole : bytes.length % byteCount = 0) :
    (chunks bytes).flatMap Chunk.bytes = bytes := by
  induction bytes using bytes_induction with
  | short bytes short =>
    rw [eq_nil_of_short short whole]
    rfl
  | chunk c rest ih =>
    rw [length_bytes_append, Nat.add_mod_right] at whole
    rw [chunks_bytes_append, List.flatMap_cons, ih whole]

theorem chunks_append {bytes : List UInt8} (whole : bytes.length % byteCount = 0)
    (more : List UInt8) : chunks (bytes ++ more) = chunks bytes ++ chunks more := by
  induction bytes using bytes_induction with
  | short bytes short =>
    rw [eq_nil_of_short short whole]
    rfl
  | chunk c rest ih =>
    rw [length_bytes_append, Nat.add_mod_right] at whole
    rw [List.append_assoc, chunks_bytes_append, chunks_bytes_append, ih whole, List.cons_append]

/-- An incomplete word at the end is in no chunk. -/
theorem chunks_take_whole (bytes : List UInt8) :
    chunks (bytes.take (byteCount * (bytes.length / byteCount))) = chunks bytes := by
  have size : (bytes.take (byteCount * (bytes.length / byteCount))).length =
      byteCount * (bytes.length / byteCount) := List.length_take_of_le (Nat.mul_div_le _ _)
  have remainder : chunks (bytes.drop (byteCount * (bytes.length / byteCount))) = [] := by
    apply chunks_of_short
    rw [List.length_drop, ← Nat.mod_eq_sub_mul_div]
    exact Nat.mod_lt _ (by decide)
  have split := chunks_append (by rw [size, Nat.mul_mod_right])
    (bytes.drop (byteCount * (bytes.length / byteCount)))
  rw [List.take_append_drop, remainder, List.append_nil] at split
  exact split.symm

end FixedPoint.Word
