import FixedPoint.Fixed.Dot
import FixedPoint.Mac.Variants
import FixedPoint.Proofs.Mac.Calls
import Mathlib.Data.List.Nodup
import Mathlib.Data.List.Perm.Subperm

/-!
# The calls of a dot product

A refused dot product leaves the unit alone. An accepted one of order `n` makes `n` calls: the first
multiplies the words at position zero, and the others add the products at positions `n - 1` down to
one, each to the result of the call before. What is narrowed is the result of the last call.

A property that the first call has and that every call hands on to the next is one of all calls,
so a claim about a run needs an argument about one step only.
-/

namespace FixedPoint.Fixed

variable {F : Nat} {M : Mac} {a b : List (Fixed F)} {n : Nat}

/-- The position of the words that call number `j` multiplies. -/
def position (n : Nat) : Nat → Nat
  | 0 => 0
  | j + 1 => n - (j + 1)

/-- The calls of a dot product of order `n` with result `r`, one by one. Both words of a call stand
at its position, which both lists have. -/
structure Protocol (M : Mac) (a b : List (Fixed F)) (n : Nat) (calls : List Mac.Call)
    (r : Fixed F) : Prop where
  count : calls.length = n
  first : ∃ x y, a[position n 0]? = some x ∧ b[position n 0]? = some y ∧
    calls[0]? = some (M.call (.mul x.raw y.raw))
  next : ∀ j, j + 1 < n → ∃ x y before,
    a[position n (j + 1)]? = some x ∧ b[position n (j + 1)]? = some y ∧
    calls[j]? = some before ∧ calls[j + 1]? = some (M.call (.mulAdd before.result x.raw y.raw))
  result : ∃ last, calls.getLast? = some last ∧ r = narrow last.result

/-- A property of call number `j` that the first call has and that goes from every call to the
next. -/
structure Invariant (M : Mac) (a b : List (Fixed F)) (n : Nat) (Holds : Nat → Mac.Call → Prop) :
    Prop where
  first : ∀ x y, a[0]? = some x → b[0]? = some y → Holds 0 (M.call (.mul x.raw y.raw))
  next : ∀ j x y before, j + 1 < n → a[n - (j + 1)]? = some x → b[n - (j + 1)]? = some y →
    Holds j before → Holds (j + 1) (M.call (.mulAdd before.result x.raw y.raw))

theorem position_lt {j : Nat} (h : j < n) : position n j < n := by
  cases j with
  | zero => exact h
  | succ j => exact Nat.sub_lt (by omega) (by omega)

/-- Call number `i` comes to position `j` if call number `j` comes to position `i`. -/
theorem position_position {j : Nat} (h : j < n) : position n (position n j) = j := by
  cases j with
  | zero => rfl
  | succ j =>
    obtain ⟨k, hk⟩ : ∃ k, n - (j + 1) = k + 1 := ⟨n - (j + 1) - 1, by omega⟩
    simp only [position, hk]
    omega

/-- The calls come to every position below `n` once. -/
theorem position_perm (n : Nat) : ((List.range n).map (position n)).Perm (List.range n) := by
  have below : (List.range n).map (position n) ⊆ List.range n := by
    intro i hi
    obtain ⟨j, hj, rfl⟩ := List.mem_map.1 hi
    exact List.mem_range.2 (position_lt (List.mem_range.1 hj))
  have distinct : ((List.range n).map (position n)).Nodup := by
    apply List.nodup_range.map_on
    intro i hi j hj same
    rw [← position_position (List.mem_range.1 hi), same, position_position (List.mem_range.1 hj)]
  exact (List.subperm_of_subset distinct below).perm_of_length_le
    (Nat.le_of_eq (List.length_map _).symm)

/-- A pair comes from one position of both lists. -/
theorem getElem?_factors {i : Nat} {p : Int32 × Int32} (h : (factors a b n)[i]? = some p) :
    ∃ x y, a[i]? = some x ∧ b[i]? = some y ∧ p = (x.raw, y.raw) := by
  rw [factors, List.getElem?_map, Option.map_eq_some_iff] at h
  obtain ⟨⟨x, y⟩, pair, rfl⟩ := h
  rw [List.getElem?_take, Option.ite_none_right_eq_some, List.getElem?_zip_eq_some] at pair
  exact ⟨x, y, pair.2.1, pair.2.2, rfl⟩

/-- The pair that is added at a turn comes from the turn's position. -/
theorem getElem?_reverse_factors {p : Int32 × Int32} {rest : List (Int32 × Int32)}
    (split : factors a b n = p :: rest) (count : rest.length + 1 = n) {j : Nat} (h : j + 1 < n) :
    ∃ x y, a[position n (j + 1)]? = some x ∧ b[position n (j + 1)]? = some y ∧
      rest.reverse[j]? = some (x.raw, y.raw) := by
  have inside : j < rest.reverse.length := by
    rw [List.length_reverse]
    omega
  have turn : (factors a b n)[position n (j + 1)]? = rest.reverse[j]? := by
    have place : position n (j + 1) = rest.length - 1 - j + 1 := by
      simp only [position]
      omega
    rw [split, place, List.getElem?_cons_succ, List.getElem?_reverse (by omega)]
  have added := List.getElem?_eq_getElem inside
  obtain ⟨x, y, hx, hy, words⟩ := getElem?_factors (turn.trans added)
  exact ⟨x, y, hx, hy, by rw [added, words]⟩

theorem protocol_of_accepted (accepted : rejection? a.length b.length n = none) :
    Protocol M a b n (dotLogged M a b n).2 (narrow (M.sum (factors a b n))) := by
  obtain ⟨pos, ha, hb⟩ := rejection?_eq_none_iff.1 accepted
  have count := length_factors ha hb
  rw [dotLogged_of_accepted accepted]
  cases split : factors a b n with
  | nil =>
    rw [split, List.length_nil] at count
    omega
  | cons p rest =>
    rw [split, List.length_cons] at count
    simp only [Mac.snd_sumVia_answerLogged, List.nil_append]
    obtain ⟨last, isLast, total⟩ :=
      Mac.getLast?_chain M (M.call (.mul p.1 p.2)) rest.reverse
    refine ⟨?_, ?_, ?_, last, isLast, ?_⟩
    · rw [Mac.length_chain, List.length_reverse, count]
    · have head : (factors a b n)[position n 0]? = some p := by rw [split]; rfl
      obtain ⟨x, y, hx, hy, rfl⟩ := getElem?_factors head
      exact ⟨x, y, hx, hy, Mac.getElem?_chain_zero _ _ _⟩
    · intro j hj
      obtain ⟨x, y, hx, hy, added⟩ := getElem?_reverse_factors split count hj
      obtain ⟨before, hbefore, hafter⟩ := Mac.getElem?_chain_succ (M := M) added
      exact ⟨x, y, before, hx, hy, hbefore, hafter⟩
    · rw [total, Mac.sum_cons_eq_foldl]
      rfl

/-- All calls have what is invariant. -/
theorem Protocol.holds {calls : List Mac.Call} {r : Fixed F} {Holds : Nat → Mac.Call → Prop}
    (p : Protocol M a b n calls r) (h : Invariant M a b n Holds) {j : Nat} (hj : j < n) :
    ∃ call, calls[j]? = some call ∧ Holds j call := by
  induction j with
  | zero =>
    obtain ⟨x, y, hx, hy, start⟩ := p.first
    exact ⟨_, start, h.first x y hx hy⟩
  | succ j ih =>
    obtain ⟨x, y, before, hx, hy, hbefore, hafter⟩ := p.next j hj
    obtain ⟨call, hcall, held⟩ := ih (by omega)
    obtain rfl : before = call := Option.some.inj (hbefore.symm.trans hcall)
    exact ⟨_, hafter, h.next j x y before hj hx hy held⟩

/-- What is narrowed is the result of a call that has what is invariant. -/
theorem Protocol.last_holds {calls : List Mac.Call} {r : Fixed F} {Holds : Nat → Mac.Call → Prop}
    (p : Protocol M a b n calls r) (h : Invariant M a b n Holds) (pos : 1 ≤ n) :
    ∃ last, calls.getLast? = some last ∧ r = narrow last.result ∧ Holds (n - 1) last := by
  obtain ⟨last, isLast, result⟩ := p.result
  obtain ⟨call, hcall, held⟩ := p.holds h (j := n - 1) (by omega)
  rw [List.getLast?_eq_getElem?, p.count] at isLast
  obtain rfl : last = call := Option.some.inj (isLast.symm.trans hcall)
  exact ⟨last, by rwa [List.getLast?_eq_getElem?, p.count], result, held⟩

/-- **One call for each position.** A refused dot product calls nothing. One that has all its
operands follows the protocol, which comes to every position below the order once, and neither the
value nor the calls depend on what lies behind. -/
theorem dotLogged_protocol (M : Mac) (a b : List (Fixed F)) (n : Nat) :
    (dotLogged M a b n).1 = dotWith M a b n ∧
    (∀ e, dotWith M a b n = .error e → (dotLogged M a b n).2 = []) ∧
    ((∃ r, dotWith M a b n = .ok r) ↔ 1 ≤ n ∧ n ≤ a.length ∧ n ≤ b.length) ∧
    (∀ r, dotWith M a b n = .ok r → Protocol M a b n (dotLogged M a b n).2 r) ∧
    ((List.range n).map (position n)).Perm (List.range n) ∧
    dotLogged M (a.take n) (b.take n) n = dotLogged M a b n := by
  refine ⟨fst_dotLogged M a b n, ?_, exists_dotWith_eq_ok_iff, ?_, position_perm n,
    dotLogged_take M a b n⟩
  · intro e refused
    rw [dotLogged_of_rejection (dotWith_eq_error_iff.1 refused)]
  · intro r accepted
    obtain ⟨judged, rfl⟩ := dotWith_eq_ok_iff.1 accepted
    exact protocol_of_accepted judged

/-- The unit tells left from right and early from late, so the calls show their order. -/
theorem dotLogged_protocol_skewed :
    let a : List (Fixed 15) := [⟨2⟩, ⟨3⟩, ⟨5⟩, ⟨7⟩]
    let b : List (Fixed 15) := [⟨11⟩, ⟨13⟩, ⟨17⟩]
    Protocol .skewed a b 3 (dotLogged .skewed a b 3).2 (narrow 528) ∧
      (dotLogged .skewed a b 3).2 =
        [⟨.mul 2 11, 24⟩, ⟨.mulAdd 24 5 17, 162⟩, ⟨.mulAdd 162 3 13, 528⟩] := by
  intro a b
  have accepted : dotWith .skewed a b 3 = .ok (narrow 528) := by decide
  exact ⟨(dotLogged_protocol .skewed a b 3).2.2.2.1 _ accepted, by decide⟩

end FixedPoint.Fixed
