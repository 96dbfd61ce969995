namespace FixedPoint

/-- The positions from `start` up to but not including `start + length`. -/
structure Span where
  start : Nat
  length : Nat
  deriving DecidableEq, Repr

namespace Span

variable {α ρ : Type}

/-- A list of `size` elements has all positions of the span. -/
abbrev Within (s : Span) (size : Nat) : Prop := s.start + s.length ≤ size

/-- A position is one of the span. -/
instance : Membership Nat Span := ⟨fun s i => s.start ≤ i ∧ i < s.start + s.length⟩

instance (i : Nat) (s : Span) : Decidable (i ∈ s) :=
  inferInstanceAs (Decidable (s.start ≤ i ∧ i < s.start + s.length))

/-- No position is in both spans. -/
def Apart (s t : Span) : Prop := ∀ i ∈ s, i ∉ t

/-- The elements in the span. -/
def slice (s : Span) (l : List α) : List α := (l.drop s.start).take s.length

/-- The list with the elements in the span replaced by `part`. -/
def splice (s : Span) (part l : List α) : List α :=
  l.take s.start ++ part ++ l.drop (s.start + s.length)

/-- A request on a list, made on the elements in the span. The others stay as they are. -/
def apply (s : Span) (request : List α → ρ × List α) (l : List α) : ρ × List α :=
  let (reply, part) := request (s.slice l)
  (reply, s.splice part l)

theorem mem_iff {s : Span} {i : Nat} : i ∈ s ↔ s.start ≤ i ∧ i < s.start + s.length := Iff.rfl

theorem apart_iff {s t : Span} : s.Apart t ↔ ∀ j < s.length, s.start + j ∉ t := by
  constructor
  · intro h j inside
    exact h (s.start + j) (by rw [mem_iff]; omega)
  · intro h i hi
    obtain ⟨low, high⟩ := mem_iff.1 hi
    have position := h (i - s.start) (by omega)
    rwa [Nat.add_sub_of_le low] at position

instance (s t : Span) : Decidable (s.Apart t) := decidable_of_iff _ apart_iff.symm

theorem length_slice {s : Span} {l : List α} (h : s.Within l.length) :
    (s.slice l).length = s.length := by
  rw [slice, List.length_take, List.length_drop]
  omega

theorem length_slice_le (s : Span) (l : List α) : (s.slice l).length ≤ s.length := by
  rw [slice, List.length_take]
  exact Nat.min_le_left _ _

theorem getElem?_slice {s : Span} {l : List α} {j : Nat} (inside : j < s.length) :
    (s.slice l)[j]? = l[s.start + j]? := by
  rw [slice, List.getElem?_take_of_lt inside, List.getElem?_drop]

theorem take_slice {s : Span} {l : List α} {k : Nat} (front : k ≤ s.length) :
    (s.slice l).take k = (⟨s.start, k⟩ : Span).slice l := by
  rw [slice, slice, List.take_take, Nat.min_eq_left front]

theorem slice_congr {s : Span} {l l' : List α} (same : ∀ i ∈ s, l[i]? = l'[i]?) :
    s.slice l = s.slice l' := by
  apply List.ext_getElem?
  intro j
  by_cases inside : j < s.length
  · rw [getElem?_slice inside, getElem?_slice inside]
    exact same (s.start + j) (by rw [mem_iff]; omega)
  · have behind (m : List α) : (s.slice m)[j]? = none :=
      List.getElem?_eq_none (Nat.le_trans (s.length_slice_le m) (Nat.le_of_not_lt inside))
    rw [behind, behind]

/-- Putting back as many elements as were taken keeps the size of the list. -/
theorem length_splice {s : Span} {part l : List α} (same : part.length = (s.slice l).length) :
    (s.splice part l).length = l.length := by
  rw [slice, List.length_take, List.length_drop] at same
  simp only [splice, List.length_append, List.length_take, List.length_drop, same]
  omega

@[simp] theorem splice_slice (s : Span) (l : List α) : s.splice (s.slice l) l = l := by
  rw [splice, slice, ← List.drop_drop, List.append_assoc, List.take_append_drop,
    List.take_append_drop]

theorem slice_splice {s : Span} {part l : List α} (h : s.Within l.length)
    (same : part.length = s.length) : s.slice (s.splice part l) = part := by
  have front : (l.take s.start).length = s.start := by
    rw [List.length_take]
    omega
  rw [slice, splice, List.append_assoc, List.drop_append_of_le_length (by omega),
    List.drop_eq_nil_of_le (by omega), List.nil_append, ← same, List.take_left]

/-- What a list holds once a part of it is replaced by another of the same size. -/
theorem getElem?_splice {s : Span} {part l : List α} (same : part.length = (s.slice l).length)
    (i : Nat) : (s.splice part l)[i]? =
      if s.start ≤ i ∧ i < s.start + part.length then part[i - s.start]? else l[i]? := by
  rw [slice, List.length_take, List.length_drop] at same
  simp only [splice, List.getElem?_append, List.length_append, List.length_take, List.getElem?_take,
    List.getElem?_drop]
  grind

/-- If the new part differs from the old one in its first elements only, then so does the list. -/
theorem getElem?_splice_of_not_mem {s : Span} {part l : List α} {written : Nat}
    (same : part.length = (s.slice l).length)
    (kept : ∀ j, written ≤ j → part[j]? = (s.slice l)[j]?) {i : Nat}
    (outside : i ∉ (⟨s.start, written⟩ : Span)) : (s.splice part l)[i]? = l[i]? := by
  have short := s.length_slice_le l
  simp only [mem_iff] at outside
  rw [getElem?_splice same]
  split
  · rename_i inside
    rw [kept (i - s.start) (by omega), getElem?_slice (by omega), Nat.add_sub_of_le inside.1]
  · rfl

theorem slice_append (front part rest : List α) :
    (⟨front.length, part.length⟩ : Span).slice (front ++ (part ++ rest)) = part := by
  rw [slice, List.drop_left, List.take_left]

theorem splice_append (front old part rest : List α) :
    (⟨front.length, old.length⟩ : Span).splice part (front ++ (old ++ rest)) =
      front ++ (part ++ rest) := by
  rw [splice, List.take_left, ← List.drop_drop, List.drop_left, List.drop_left, List.append_assoc]

/-- A list into which a part of another of the same size is copied. -/
theorem getElem?_splice_slice (s : Span) {target l : List α} (same : l.length = target.length)
    (i : Nat) : (s.splice (s.slice target) l)[i]? = if i ∈ s then target[i]? else l[i]? := by
  have size : (s.slice target).length = (s.slice l).length := by
    simp only [slice, List.length_take, List.length_drop, same]
  have short := s.length_slice_le target
  rw [getElem?_splice size]
  by_cases inside : i ∈ s
  · obtain ⟨low, high⟩ := mem_iff.1 inside
    rw [if_pos inside]
    split
    · rw [getElem?_slice (by omega), Nat.add_sub_of_le low]
    · rename_i behind
      simp only [slice, List.length_take, List.length_drop] at behind
      rw [List.getElem?_eq_none (by omega), List.getElem?_eq_none (by omega)]
  · have outside := inside
    rw [mem_iff] at outside
    rw [if_neg inside, if_neg (by omega)]

/-- A request that replaces the front of what it is given replaces the front of the span. -/
theorem apply_of_front {s : Span} {request : List α → ρ × List α} {reply : ρ} {part l : List α}
    (front : request (s.slice l) = (reply, part ++ (s.slice l).drop part.length))
    (room : part.length ≤ s.length) :
    s.apply request l = (reply, (⟨s.start, part.length⟩ : Span).splice part l) := by
  have behind : (s.slice l).drop part.length ++ l.drop (s.start + s.length) =
      l.drop (s.start + part.length) := by
    have total : s.start + s.length = s.start + part.length + (s.length - part.length) := by omega
    rw [slice, List.drop_take, List.drop_drop, total, ← List.drop_drop (j := s.start + part.length),
      List.take_append_drop]
  simp only [apply, front, splice, List.append_assoc, behind]

end Span

end FixedPoint
