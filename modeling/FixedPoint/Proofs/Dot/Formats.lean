import FixedPoint.Proofs.Dot.Exact
import FixedPoint.Profile
import Mathlib.Data.List.GetD

namespace FixedPoint.Fixed

variable {F G : Nat} {n : Nat}

theorem length_eq_of_map_raw {a : List (Fixed F)} {a' : List (Fixed G)}
    (same : a.map raw = a'.map raw) : a.length = a'.length := by
  simpa using congrArg List.length same

theorem wordAt_eq_getD_map (a : List (Fixed F)) (i : Nat) :
    wordAt a i = ((a.map raw).getD i 0).toInt := by
  have zero : (0 : Int32) = raw (0 : Fixed F) := rfl
  rw [zero, List.getD_map, wordAt]

theorem exactDot_congr {a b : List (Fixed F)} {a' b' : List (Fixed G)}
    (sameA : a.map raw = a'.map raw) (sameB : b.map raw = b'.map raw) (n : Nat) :
    exactDot a b n = exactDot a' b' n := by
  unfold exactDot
  simp only [wordAt_eq_getD_map, sameA, sameB]

/-- The coarse result keeps the lowest `32` bits of its floor, and the shift drops some of them. -/
theorem ofSteps_shiftRight_modEq (z : Int) (le : G ≤ F) (top : Storable F) :
    (ofSteps (z / 2 ^ F) : Fixed F).raw.toInt ≡
      ((ofSteps (z / 2 ^ G) : Fixed G).raw >>> Int32.ofNat (F - G)).toInt
        [ZMOD 2 ^ (32 - (F - G))] := by
  have fine := (toInt_raw_ofSteps_modEq (F := F) (z / 2 ^ F)).of_dvd
    (pow_dvd_pow 2 (Nat.sub_le 32 (F - G)))
  have coarse := toInt_raw_ofSteps_modEq (F := G) (z / 2 ^ G)
  rw [← Nat.add_sub_of_le (show F - G ≤ 32 by omega)] at coarse
  have shifted := Residue.ediv_modEq coarse
  rw [Residue.ediv_pow_ediv_pow z le] at shifted
  rw [Word.toInt_shiftRight _ (by omega)]
  exact fine.trans shifted.symm

theorem ofSteps_shiftRight_eq (z : Int) (le : G ≤ F) (top : Storable F)
    (bounds : -2 ^ (31 + G) ≤ z ∧ z < 2 ^ (31 + G)) :
    (ofSteps (z / 2 ^ F) : Fixed F).raw =
      (ofSteps (z / 2 ^ G) : Fixed G).raw >>> Int32.ofNat (F - G) := by
  have wider : (2 : Int) ^ (31 + G) ≤ 2 ^ (31 + F) := pow_le_pow_right₀ (by decide) (by omega)
  have fine : -2 ^ (31 + F) ≤ z ∧ z < 2 ^ (31 + F) := by omega
  rw [← toInt_raw_ofSteps_ediv_eq_iff] at fine bounds
  rw [← Int32.toInt_inj, Word.toInt_shiftRight _ (by omega), fine, bounds,
    Residue.ediv_pow_ediv_pow z le]

/-- **Two formats agree as far as they can.** They refuse the same requests with the same error. The
fine result is the coarse one shifted right, up to the bits that the coarse one lacks, and exactly
if the coarse one is not wrapped. -/
theorem dot_eq_dot_shiftRight (low : 1 ≤ G) (le : G ≤ F) (top : F ≤ 29) {a b : List (Fixed F)}
    {a' b' : List (Fixed G)} (sameA : a.map raw = a'.map raw) (sameB : b.map raw = b'.map raw)
    (n : Nat) :
    (∀ e, dot a b n = .error e ↔ dot a' b' n = .error e) ∧
    (1 ≤ n → n ≤ a.length → n ≤ b.length →
      ∃ x y, dot a b n = .ok x ∧ dot a' b' n = .ok y ∧
        x.raw.toInt ≡ (y.raw >>> Int32.ofNat (F - G)).toInt [ZMOD 2 ^ (32 - (F - G))] ∧
        (-2 ^ (31 + G) ≤ exactDot a b n → exactDot a b n < 2 ^ (31 + G) →
          x.raw = y.raw >>> Int32.ofNat (F - G))) := by
  have lengthA := length_eq_of_map_raw sameA
  have lengthB := length_eq_of_map_raw sameB
  constructor
  · intro e
    rw [dot, dot, dotWith_eq_error_iff, dotWith_eq_error_iff, lengthA, lengthB]
  · intro pos ha hb
    have fine := dot_eq_ofSteps ⟨low.trans le, top⟩ pos ha hb
    have coarse := dot_eq_ofSteps (a := a') (b := b') ⟨low, le.trans top⟩ pos
      (by omega) (by omega)
    rw [← exactDot_congr sameA sameB] at coarse
    have storable : Storable F := by omega
    refine ⟨_, _, fine, coarse, ofSteps_shiftRight_modEq _ le storable, ?_⟩
    intro lower upper
    exact ofSteps_shiftRight_eq _ le storable ⟨lower, upper⟩

/-- The formats of the two profiles differ by four bits. The sum `2 ^ 46` is the least that the
coarse one wraps, and the results differ in their high bits. The sum `-2 ^ 46` is in its range. -/
theorem dot_eq_dot_shiftRight_profiles :
    let a (w : Int32) : List Profile.q19.Value := [⟨w⟩]
    let b (w : Int32) : List Profile.q15.Value := [⟨w⟩]
    (∃ x y, dot (a 8388608) (a 8388608) 1 = .ok x ∧ dot (b 8388608) (b 8388608) 1 = .ok y ∧
      x.raw.toInt ≡ (y.raw >>> 4).toInt [ZMOD 2 ^ 28] ∧ x.raw ≠ y.raw >>> 4) ∧
    ∃ x y, dot (a (-8388608)) (a 8388608) 1 = .ok x ∧ dot (b (-8388608)) (b 8388608) 1 = .ok y ∧
      x.raw = y.raw >>> 4 := by
  intro a b
  have same (w : Int32) : (a w).map raw = (b w).map raw := rfl
  constructor
  · obtain ⟨x, y, fine, coarse, congruent, -⟩ := (dot_eq_dot_shiftRight (by decide) (by decide)
      (by decide) (same 8388608) (same 8388608) 1).2 (by decide) (by decide) (by decide)
    refine ⟨x, y, fine, coarse, congruent, ?_⟩
    rw [dot_eq_ofSteps (by decide) (by decide) (by decide) (by decide)] at fine coarse
    cases fine
    cases coarse
    decide
  · obtain ⟨x, y, fine, coarse, -, equal⟩ := (dot_eq_dot_shiftRight (by decide) (by decide)
      (by decide) (same (-8388608)) (same 8388608) 1).2 (by decide) (by decide) (by decide)
    exact ⟨x, y, fine, coarse, equal (by decide) (by decide)⟩

end FixedPoint.Fixed
