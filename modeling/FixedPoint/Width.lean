namespace FixedPoint

/-- A format is named by its number `F` of fraction bits. A word can be shifted by so many bits.
Enough to add, compare, floor and store values. -/
abbrev Storable (F : Nat) : Prop := F ≤ 31

/-- `2 ^ F` is a positive word, so the mask of the fraction bits is one less than a word. -/
abbrev Maskable (F : Nat) : Prop := F ≤ 30

/-- There is a fraction bit, and the number two is representable. Multiplying asks for this. -/
abbrev Scalable (F : Nat) : Prop := 1 ≤ F ∧ F ≤ 29

end FixedPoint
