import FixedPoint.Proofs.Table.RoundTrip
import FixedPoint.Span
import Mathlib.Algebra.BigOperators.Fin
import Mathlib.Data.List.FinRange

/-!
# Tables in pieces

A table need not be moved at once. Cut into consecutive pieces, each stored or loaded where its
first value belongs, it leaves the buffer that one request for the whole table leaves, in whatever
order the pieces come. A piece can be empty, and the room it is given can be larger than it needs.
-/

namespace FixedPoint.Table

open Fixed (one ofInt minValue)
open Word (byteCount)

variable {F : Nat} {C : Word.Codec} {α β ρ : Type}

/-- The replies to requests that are made one after another, and the list that they leave. -/
def inTurn : List (List β → ρ × List β) → List β → List ρ × List β
  | [], l => ([], l)
  | request :: requests, l =>
    let (reply, l) := request l
    let (replies, l) := inTurn requests l
    (reply :: replies, l)

/-- The span is that of a piece: it starts where the piece belongs, it has room for the piece, and
the list has all its positions. -/
structure Offers (s : Span) (start room size : Nat) : Prop where
  start : s.start = start
  room : room ≤ s.length
  within : s.Within size

/-- The positions that a piece takes up when the images of all pieces stand one behind another. -/
def piece (image : α → List β) (pieces : List α) (j : Fin pieces.length) : Span :=
  ⟨((pieces.take j).flatMap image).length, (image (pieces.get j)).length⟩

theorem inTurn_cons (request : List β → ρ × List β) (requests : List (List β → ρ × List β))
    (l : List β) :
    inTurn (request :: requests) l =
      ((request l).1 :: (inTurn requests (request l).2).1, (inTurn requests (request l).2).2) := rfl

/-- Requests that copy parts of a target into a list make it the target, if they reach every
position in which the two differ. They may overlap and come in any order. -/
theorem inTurn_of_copies {target : List β} {request : α → List β → ρ × List β} {reply : α → ρ}
    (span : α → Span) {order : List α} {l : List β} (size : l.length = target.length)
    (copies : ∀ j ∈ order, ∀ l : List β, l.length = target.length →
      request j l = (reply j, (span j).splice ((span j).slice target) l))
    (rest : ∀ i, (∀ j ∈ order, i ∉ span j) → l[i]? = target[i]?) :
    inTurn (order.map request) l = (order.map reply, target) := by
  induction order generalizing l with
  | nil =>
    have same : l = target := List.ext_getElem? fun i => rest i (by simp)
    rw [same]
    rfl
  | cons j order ih =>
    have first := copies j (.head _) l size
    have after : (request j l).2.length = target.length := by
      rw [first, Span.length_splice, size]
      simp only [Span.slice, List.length_take, List.length_drop, size]
    have later := ih after (fun k member => copies k (.tail _ member)) ?_
    · rw [List.map_cons, inTurn_cons, later, first, List.map_cons]
    · intro i untouched
      rw [first, Span.getElem?_splice_slice _ size]
      split
      · rfl
      · rename_i outside
        apply rest
        intro k member
        rcases List.mem_cons.1 member with rfl | member
        · exact outside
        · exact untouched k member

/-- Between zero and `f n` every number lies between two neighbouring values of `f`. -/
theorem exists_between {f : Nat → Nat} (zero : f 0 = 0) {i n : Nat} (below : i < f n) :
    ∃ j < n, f j ≤ i ∧ i < f (j + 1) := by
  induction n with
  | zero => omega
  | succ n ih =>
    by_cases earlier : i < f n
    · obtain ⟨j, hj, bounds⟩ := ih earlier
      exact ⟨j, by omega, bounds⟩
    · exact ⟨n, by omega, by omega, below⟩

theorem length_flatMap_take_succ (image : α → List β) (pieces : List α) {j : Nat}
    (h : j < pieces.length) :
    ((pieces.take (j + 1)).flatMap image).length =
      ((pieces.take j).flatMap image).length + (image (pieces.get ⟨j, h⟩)).length := by
  rw [List.take_add_one, List.getElem?_eq_getElem h, List.flatMap_append, List.length_append]
  simp

/-- Every position of the whole is one of a piece. -/
theorem exists_mem_piece (image : α → List β) (pieces : List α) {i : Nat}
    (inside : i < (pieces.flatMap image).length) : ∃ j, i ∈ piece image pieces j := by
  obtain ⟨j, hj, low, high⟩ :=
    exists_between (f := fun j => ((pieces.take j).flatMap image).length) (n := pieces.length) rfl
      (by rwa [List.take_length])
  rw [length_flatMap_take_succ image pieces hj] at high
  exact ⟨⟨j, hj⟩, low, high⟩

/-- The whole holds the image of a piece in the piece's positions. -/
theorem slice_piece (image : α → List β) (pieces : List α) (j : Fin pieces.length)
    (rest : List β) :
    (piece image pieces j).slice (pieces.flatMap image ++ rest) = image (pieces.get j) := by
  have cut : pieces = pieces.take j ++ pieces.get j :: pieces.drop (j + 1) := by
    rw [List.get_eq_getElem, List.getElem_cons_drop, List.take_append_drop]
  have whole : pieces.flatMap image ++ rest = (pieces.take j).flatMap image ++
      (image (pieces.get j) ++ ((pieces.drop (j + 1)).flatMap image ++ rest)) := by
    conv_lhs => rw [cut]
    simp only [List.flatMap_append, List.flatMap_cons, List.append_assoc]
  rw [whole]
  exact Span.slice_append _ _ _

/-- Pieces put in their places in any order are the whole. -/
theorem inTurn_eq_flatMap {image : α → List β} {pieces : List α}
    {request : Fin pieces.length → List β → ρ × List β} {reply : Fin pieces.length → ρ}
    {order : List (Fin pieces.length)} {l : List β}
    (room : (pieces.flatMap image).length ≤ l.length) (every : ∀ j, j ∈ order)
    (puts : ∀ j, ∀ l' : List β, l'.length = l.length →
      request j l' = (reply j, (piece image pieces j).splice (image (pieces.get j)) l')) :
    inTurn (order.map request) l =
      (order.map reply, pieces.flatMap image ++ l.drop (pieces.flatMap image).length) := by
  have size : l.length =
      (pieces.flatMap image ++ l.drop (pieces.flatMap image).length).length := by
    rw [List.length_append, List.length_drop]
    omega
  apply inTurn_of_copies (piece image pieces) size
  · intro j _ l' same
    rw [slice_piece, puts j l' (same.trans size.symm)]
  · intro i outside
    apply (getElem?_behind rfl l _).symm
    by_contra inside
    obtain ⟨j, member⟩ := exists_mem_piece image pieces (Nat.lt_of_not_le inside)
    exact outside j (every j) member

theorem apply_storeWith (h : C.LittleEndian) {s : Span} {values : List (Fixed F)}
    {buffer : List UInt8} {start : Nat}
    (place : Offers s start (byteCount * values.length) buffer.length) :
    s.apply (storeWith C values) buffer =
      (.ok (byteCount * values.length),
        (⟨start, byteCount * values.length⟩ : Span).splice (encode C values) buffer) := by
  have room : byteCount * values.length ≤ (s.slice buffer).length := by
    rw [Span.length_slice place.within]
    exact place.room
  have front := storeWith_eq_encode h room
  rw [← length_encode C] at front ⊢
  rw [Span.apply_of_front front (by rw [length_encode]; exact place.room), place.start]

theorem apply_loadWith {s : Span} {bytes : List UInt8} {slots : List (Fixed F)} {start : Nat}
    (whole : bytes.length % byteCount = 0)
    (place : Offers s start (bytes.length / byteCount) slots.length) :
    s.apply (loadWith C bytes) slots =
      (.ok (bytes.length / byteCount),
        (⟨start, bytes.length / byteCount⟩ : Span).splice (decode C bytes) slots) := by
  have room : bytes.length / byteCount ≤ (s.slice slots).length := by
    rw [Span.length_slice place.within]
    exact place.room
  have front := loadWith_of_le (C := C) whole room
  rw [← length_decode (F := F) C] at front ⊢
  rw [Span.apply_of_front front (by rw [length_decode]; exact place.room), place.start]

theorem encode_flatten (C : Word.Codec) (pieces : List (List (Fixed F))) :
    encode C pieces.flatten = pieces.flatMap (encode C) := by
  induction pieces with
  | nil => rfl
  | cons values pieces ih => rw [List.flatten_cons, encode_append, ih, List.flatMap_cons]

theorem length_flatten_mod {pieces : List (List UInt8)}
    (whole : ∀ bytes ∈ pieces, bytes.length % byteCount = 0) :
    pieces.flatten.length % byteCount = 0 := by
  rw [List.length_flatten]
  apply Nat.mod_eq_zero_of_dvd
  apply List.dvd_sum
  intro length member
  obtain ⟨bytes, inside, rfl⟩ := List.mem_map.1 member
  exact Nat.dvd_of_mod_eq_zero (whole bytes inside)

theorem decode_flatten {pieces : List (List UInt8)}
    (whole : ∀ bytes ∈ pieces, bytes.length % byteCount = 0) :
    (decode C pieces.flatten : List (Fixed F)) = pieces.flatMap (decode C) := by
  induction pieces with
  | nil => rfl
  | cons bytes pieces ih =>
    rw [List.flatten_cons, decode_append (whole bytes (.head _)),
      ih fun later member => whole later (.tail _ member), List.flatMap_cons]

/-- What the pieces take up adds up to the whole, in whatever order it is added. -/
theorem sum_length_image (image : α → List β) {pieces : List α}
    {order : List (Fin pieces.length)} (every : order.Perm (List.finRange pieces.length)) :
    (order.map fun j => (image (pieces.get j)).length).sum = (pieces.flatMap image).length := by
  calc (order.map fun j => (image (pieces.get j)).length).sum
      = ((List.finRange pieces.length).map fun j => (image (pieces.get j)).length).sum :=
        (every.map _).sum_eq
    _ = (((List.finRange pieces.length).map pieces.get).map fun p => (image p).length).sum := by
        rw [List.map_map]
        rfl
    _ = (pieces.map fun p => (image p).length).sum := by rw [List.map_get_finRange]
    _ = (pieces.flatMap image).length := List.length_flatMap.symm

/-- Another value at one place is another word in its bytes. -/
theorem splice_encode {values : List (Fixed F)} {i : Nat} (inside : i < values.length)
    (v : Fixed F) (rest : List UInt8) :
    (⟨byteCount * i, byteCount⟩ : Span).splice (encode C [v]) (encode C values ++ rest) =
      encode C (values.set i v) ++ rest := by
  have old : values = values.take i ++ ([values[i]] ++ values.drop (i + 1)) := by
    rw [List.singleton_append, List.getElem_cons_drop, List.take_append_drop]
  have new : values.set i v = values.take i ++ ([v] ++ values.drop (i + 1)) := by
    rw [List.set_eq_take_append_cons_drop, if_pos inside, List.singleton_append]
  have front : byteCount * i = (encode C (values.take i)).length := by
    rw [length_encode, List.length_take, Nat.min_eq_left (Nat.le_of_lt inside)]
  have word : byteCount = (encode C [values[i]]).length := (length_encode C [values[i]]).symm
  have before : encode C values ++ rest = encode C (values.take i) ++
      (encode C [values[i]] ++ (encode C (values.drop (i + 1)) ++ rest)) := by
    conv_lhs => rw [old]
    rw [encode_append, encode_append, List.append_assoc, List.append_assoc]
  have after : encode C (values.set i v) ++ rest = encode C (values.take i) ++
      (encode C [v] ++ (encode C (values.drop (i + 1)) ++ rest)) := by
    rw [new, encode_append, encode_append, List.append_assoc, List.append_assoc]
  rw [before, after, front, word, Span.splice_append]

/-- One value stored over a packed table, at its place. -/
theorem store_singleton_over (h : C.LittleEndian) {values : List (Fixed F)} {buffer : List UInt8}
    {s : Span} {i : Nat} (v : Fixed F) (room : byteCount * values.length ≤ buffer.length)
    (inside : i < values.length) (place : Offers s (byteCount * i) byteCount buffer.length) :
    s.apply (storeWith C [v]) (storeWith C values buffer).2 =
      (.ok byteCount, (storeWith C (values.set i v) buffer).2) := by
  have same : (values.set i v).length = values.length := List.length_set
  rw [← length_snd_storeWith C values buffer] at place
  have alone : Offers s (byteCount * i) (byteCount * [v].length)
      (storeWith C values buffer).2.length := place
  rw [apply_storeWith h alone, List.length_singleton, Nat.mul_one, storeWith_eq_encode h room,
    storeWith_eq_encode h (by rwa [same]), splice_encode inside, same]

theorem store_in_pieces (h : C.LittleEndian) {pieces : List (List (Fixed F))}
    {buffer : List UInt8} {order : List (Fin pieces.length)} {part : Fin pieces.length → Span}
    (room : byteCount * pieces.flatten.length ≤ buffer.length)
    (every : order.Perm (List.finRange pieces.length))
    (place : ∀ j, Offers (part j) (byteCount * (pieces.take j).flatten.length)
      (byteCount * (pieces.get j).length) buffer.length) :
    inTurn (order.map fun j => (part j).apply (storeWith C (pieces.get j))) buffer =
        (order.map fun j => .ok (byteCount * (pieces.get j).length),
          (storeWith C pieces.flatten buffer).2) ∧
      (storeWith C pieces.flatten buffer).1 =
        .ok (order.map fun j => byteCount * (pieces.get j).length).sum := by
  have total : byteCount * pieces.flatten.length = (pieces.flatMap (encode C)).length := by
    rw [← encode_flatten, length_encode]
  rw [storeWith_eq_encode h room, encode_flatten, total]
  simp only [← length_encode C, encode_flatten] at place ⊢
  constructor
  · apply inTurn_eq_flatMap (by rwa [← total]) fun j => every.mem_iff.2 (List.mem_finRange j)
    intro j buffer' same
    have here := place j
    rw [length_encode, ← same] at here
    rw [apply_storeWith h here, ← length_encode C]
    rfl
  · rw [sum_length_image (encode C) every]

theorem load_in_pieces {pieces : List (List UInt8)} {slots : List (Fixed F)}
    {order : List (Fin pieces.length)} {part : Fin pieces.length → Span}
    (whole : ∀ bytes ∈ pieces, bytes.length % byteCount = 0)
    (room : pieces.flatten.length / byteCount ≤ slots.length)
    (every : order.Perm (List.finRange pieces.length))
    (place : ∀ j, Offers (part j) ((pieces.take j).flatten.length / byteCount)
      ((pieces.get j).length / byteCount) slots.length) :
    inTurn (order.map fun j => (part j).apply (loadWith C (pieces.get j))) slots =
        (order.map fun j => .ok ((pieces.get j).length / byteCount),
          (loadWith C pieces.flatten slots).2) ∧
      (loadWith C pieces.flatten slots).1 =
        .ok (order.map fun j => (pieces.get j).length / byteCount).sum := by
  have count (k : Nat) : (pieces.take k).flatten.length / byteCount =
      ((pieces.take k).flatMap (decode (F := F) C)).length := by
    rw [← decode_flatten fun bytes member => whole bytes (List.mem_of_mem_take member),
      length_decode]
  have total : pieces.flatten.length / byteCount =
      (pieces.flatMap (decode (F := F) C)).length := by
    rw [← decode_flatten whole, length_decode]
  rw [loadWith_of_le (length_flatten_mod whole) room, decode_flatten whole, total]
  simp only [← length_decode (F := F) C (pieces.get _)]
  constructor
  · apply inTurn_eq_flatMap (by rwa [← total]) fun j => every.mem_iff.2 (List.mem_finRange j)
    intro j slots' same
    have here := place j
    rw [← same] at here
    rw [apply_loadWith (whole _ (List.get_mem pieces j)) here, count, ← length_decode (F := F) C]
    rfl
  · rw [sum_length_image (decode C) every]

/-- **Pieces in any order make the whole.** Storing a table in pieces, each from the byte of its
first value on, leaves the bytes that one request leaves, and the counts add up to its count. The
same holds for loading. So a packed table is kept up to date by storing what changes. -/
theorem inTurn_pieces_eq_whole (h : C.LittleEndian) :
    (∀ (pieces : List (List (Fixed F))) (buffer : List UInt8) (order : List (Fin pieces.length))
        (part : Fin pieces.length → Span),
      byteCount * pieces.flatten.length ≤ buffer.length →
      order.Perm (List.finRange pieces.length) →
      (∀ j, Offers (part j) (byteCount * (pieces.take j).flatten.length)
        (byteCount * (pieces.get j).length) buffer.length) →
      inTurn (order.map fun j => (part j).apply (storeWith C (pieces.get j))) buffer =
          (order.map fun j => .ok (byteCount * (pieces.get j).length),
            (storeWith C pieces.flatten buffer).2) ∧
        (storeWith C pieces.flatten buffer).1 =
          .ok (order.map fun j => byteCount * (pieces.get j).length).sum) ∧
    (∀ (pieces : List (List UInt8)) (slots : List (Fixed F)) (order : List (Fin pieces.length))
        (part : Fin pieces.length → Span),
      (∀ bytes ∈ pieces, bytes.length % byteCount = 0) →
      pieces.flatten.length / byteCount ≤ slots.length →
      order.Perm (List.finRange pieces.length) →
      (∀ j, Offers (part j) ((pieces.take j).flatten.length / byteCount)
        ((pieces.get j).length / byteCount) slots.length) →
      inTurn (order.map fun j => (part j).apply (loadWith C (pieces.get j))) slots =
          (order.map fun j => .ok ((pieces.get j).length / byteCount),
            (loadWith C pieces.flatten slots).2) ∧
        (loadWith C pieces.flatten slots).1 =
          .ok (order.map fun j => (pieces.get j).length / byteCount).sum) ∧
    ∀ (values : List (Fixed F)) (buffer : List UInt8) (i : Nat) (v : Fixed F) (part : Span),
      byteCount * values.length ≤ buffer.length → i < values.length →
      Offers part (byteCount * i) byteCount buffer.length →
      part.apply (storeWith C [v]) (storeWith C values buffer).2 =
        (.ok byteCount, (storeWith C (values.set i v) buffer).2) := by
  refine ⟨?_, ?_, ?_⟩
  · intro pieces buffer order part room every place
    exact store_in_pieces h room every place
  · intro pieces slots order part whole room every place
    exact load_in_pieces whole room every place
  · intro values buffer i v part room inside place
    exact store_singleton_over h v room inside place

/-- Three pieces, one of them empty, go into the front of fourteen bytes, the last piece first. Two
pieces come back in the other order, and then the value in the middle changes. -/
theorem inTurn_pieces_eq_whole_scattered :
    let C : Word.Codec := .littleEndian
    let pieces : List (List (Fixed 15)) := [[one], [], [⟨-1⟩, ofInt (-3)]]
    let bytes : Fin 3 → Span := ![⟨0, 5⟩, ⟨4, 0⟩, ⟨4, 9⟩]
    let buffer : List UInt8 := List.replicate 14 0xAA
    let packed : List (List UInt8) :=
      [[0, 0x80, 0, 0], [0xFF, 0xFF, 0xFF, 0xFF, 0, 0x80, 0xFE, 0xFF]]
    let places : Fin 2 → Span := ![⟨0, 4⟩, ⟨1, 2⟩]
    let slots : List (Fixed 15) := List.replicate 4 minValue
    inTurn (([2, 0, 1] : List (Fin 3)).map fun j => (bytes j).apply (storeWith C (pieces.get j)))
          buffer =
        ([.ok 8, .ok 4, .ok 0], (storeWith C pieces.flatten buffer).2) ∧
      inTurn (([1, 0] : List (Fin 2)).map fun j => (places j).apply (loadWith C (packed.get j)))
          slots =
        ([.ok 2, .ok 1], (loadWith C packed.flatten slots).2) ∧
      (⟨4, 10⟩ : Span).apply (storeWith C [(minValue : Fixed 15)])
          (storeWith C pieces.flatten buffer).2 =
        (.ok 4, (storeWith C (pieces.flatten.set 1 minValue) buffer).2) := by
  intro C pieces bytes buffer packed places slots
  obtain ⟨stored, loaded, changed⟩ :=
    inTurn_pieces_eq_whole (F := 15) Word.Codec.littleEndian_lawful
  refine ⟨?_, ?_, ?_⟩
  · have room (j : Fin 3) : Offers (bytes j) (byteCount * (pieces.take j).flatten.length)
        (byteCount * (pieces.get j).length) buffer.length :=
      ⟨by revert j; decide, by revert j; decide, by revert j; decide⟩
    exact (stored pieces buffer [2, 0, 1] bytes (by decide) (by decide) room).1
  · have room (j : Fin 2) : Offers (places j)
        ((packed.take j).flatten.length / byteCount)
        ((packed.get j).length / byteCount) slots.length :=
      ⟨by revert j; decide, by revert j; decide, by revert j; decide⟩
    have counts : (([1, 0] : List (Fin 2)).map fun j =>
        (.ok ((packed.get j).length / byteCount) : Except Error Nat)) = [.ok 2, .ok 1] := by
      decide
    rw [← counts]
    exact (loaded packed slots [1, 0] places (by decide) (by decide) (by decide) room).1
  · exact changed pieces.flatten buffer 1 minValue ⟨4, 10⟩ (by decide) (by decide)
      ⟨by decide, by decide, by decide⟩

end FixedPoint.Table
