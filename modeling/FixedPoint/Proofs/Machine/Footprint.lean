import FixedPoint.Machine.Run

namespace FixedPoint.Machine

variable {F : Nat}

/-- The registers that a step writes if it succeeds. -/
def Step.registers : Step → Span
  | .set d _ => ⟨d, 1⟩
  | .store _ _ => ⟨0, 0⟩
  | .load mem regs => ⟨regs.start, mem.length / Word.byteCount⟩

/-- The bytes that a step writes if it succeeds. -/
def Step.bytes : Step → Span
  | .set _ _ => ⟨0, 0⟩
  | .store regs mem => ⟨mem.start, Word.byteCount * regs.length⟩
  | .load _ _ => ⟨0, 0⟩

/-- Two states of one size that differ in what the step writes and nowhere else. -/
structure Step.Confined (step : Step) (s t : State F) : Prop where
  size : t.regs.length = s.regs.length ∧ t.mem.length = s.mem.length
  regs : ∀ i, i ∉ step.registers → t.regs[i]? = s.regs[i]?
  mem : ∀ i, i ∉ step.bytes → t.mem[i]? = s.mem[i]?

theorem Step.regs_exec (C : Word.Codec) (s : State F) (step : Step) {i : Nat}
    (outside : i ∉ step.registers) : (step.exec C s).2.regs[i]? = s.regs[i]? := by
  cases step with
  | set d source =>
    have other : d ≠ i := by
      rintro rfl
      exact outside (by simp [registers, Span.mem_iff])
    simp only [exec]
    split
    · exact List.getElem?_set_ne other
    · rfl
  | store regs mem => rfl
  | load mem regs =>
    rw [exec_load]
    apply Span.getElem?_splice_of_not_mem (Table.length_snd_loadWith _ _ _) _ outside
    intro j behind
    apply Table.getElem?_snd_loadWith_behind
    exact Nat.le_trans (Nat.div_le_div_right (mem.length_slice_le s.mem)) behind

theorem Step.mem_exec (C : Word.Codec) (s : State F) (step : Step) {i : Nat}
    (outside : i ∉ step.bytes) : (step.exec C s).2.mem[i]? = s.mem[i]? := by
  cases step with
  | set d source =>
    simp only [exec]
    split <;> rfl
  | store regs mem =>
    rw [exec_store]
    apply Span.getElem?_splice_of_not_mem (Table.length_snd_storeWith _ _ _) _ outside
    intro j behind
    apply Table.getElem?_snd_storeWith_behind
    exact Nat.le_trans (Nat.mul_le_mul_left _ (regs.length_slice_le s.regs)) behind
  | load mem regs => rfl

/-- No step changes anything but what it writes. -/
theorem Step.exec_confined (C : Word.Codec) (s : State F) (step : Step) :
    step.Confined s (step.exec C s).2 where
  size := ⟨step.length_regs_exec C s, step.length_mem_exec C s⟩
  regs := fun _ outside => step.regs_exec C s outside
  mem := fun _ outside => step.mem_exec C s outside

/-- A byte that no step of a run writes is as it was. -/
theorem mem_final (C : Word.Codec) (s : State F) (steps : List Step) {i : Nat}
    (outside : ∀ step ∈ steps, i ∉ step.bytes) : (final C s steps).mem[i]? = s.mem[i]? := by
  induction steps generalizing s with
  | nil => rfl
  | cons step steps ih =>
    rw [final_cons, ih _ fun later member => outside later (.tail _ member)]
    exact step.mem_exec C s (outside step (.head _))

end FixedPoint.Machine
