import FixedPoint.Proofs.Machine.Footprint

namespace FixedPoint.Machine

variable {F : Nat} {C : Word.Codec} {s : State F} {step : Step} {steps : List Step}

/-- The steps of a run that succeed, in order. -/
def succeeding (C : Word.Codec) (s : State F) (steps : List Step) : List Step :=
  ((steps.zip (runWith C s steps)).filter fun p => p.2.1.isOk).map Prod.fst

theorem succeeding_cons_of_ok {reply : Reply F} (ok : (step.exec C s).1 = .ok reply) :
    succeeding C s (step :: steps) = step :: succeeding C (step.exec C s).2 steps := by
  simp [succeeding, runWith_cons, ok, Except.isOk, Except.toBool]

theorem succeeding_cons_of_error {e : Error} (failed : (step.exec C s).1 = .error e) :
    succeeding C s (step :: steps) = succeeding C s steps := by
  have same := Step.exec_of_error failed
  simp [succeeding, runWith_cons, failed, same, Except.isOk, Except.toBool]

/-- The outcome at a position is that of its step in the state after the steps before it. -/
theorem getElem?_runWith (C : Word.Codec) (s : State F) (steps : List Step) (i : Nat) :
    (runWith C s steps)[i]? =
      steps[i]?.map fun step => step.exec C (final C s (steps.take i)) := by
  induction steps generalizing s i with
  | nil => rfl
  | cons step steps ih =>
    cases i with
    | zero => rfl
    | succ i => exact ih (step.exec C s).2 i

theorem final_take_succ {i : Nat} (at_i : steps[i]? = some step) :
    final C s (steps.take (i + 1)) = (step.exec C (final C s (steps.take i))).2 := by
  rw [List.take_add_one, at_i, final_append]
  rfl

theorem runWith_succeeding (C : Word.Codec) (s : State F) (steps : List Step) :
    runWith C s (succeeding C s steps) =
      (runWith C s steps).filter fun outcome => outcome.1.isOk := by
  induction steps generalizing s with
  | nil => rfl
  | cons step steps ih =>
    cases judged : (step.exec C s).1 with
    | ok reply =>
      rw [succeeding_cons_of_ok judged]
      simp [runWith_cons, ih, judged, Except.isOk, Except.toBool]
    | error e =>
      have same := Step.exec_of_error judged
      rw [succeeding_cons_of_error judged, ih]
      simp [runWith_cons, judged, same, Except.isOk, Except.toBool]

theorem final_succeeding (C : Word.Codec) (s : State F) (steps : List Step) :
    final C s (succeeding C s steps) = final C s steps := by
  induction steps generalizing s with
  | nil => rfl
  | cons step steps ih =>
    cases judged : (step.exec C s).1 with
    | ok reply =>
      rw [succeeding_cons_of_ok judged, final_cons, final_cons]
      exact ih (step.exec C s).2
    | error e =>
      have same := Step.exec_of_error judged
      rw [succeeding_cons_of_error judged, final_cons, same]
      exact ih s

/-- **Failed steps leave no trace.** In every run a step changes only the registers and bytes that
it writes, and nothing at all if it fails. Without the failed steps the others give the same
outcomes, and the run ends in the same state. -/
theorem failed_steps_leave_no_trace (C : Word.Codec) (s : State F) (steps : List Step) :
    (∀ i step, steps[i]? = some step →
      ∃ outcome, (runWith C s steps)[i]? = some outcome ∧
        outcome.2 = final C s (steps.take (i + 1)) ∧
        step.Confined (final C s (steps.take i)) outcome.2 ∧
        ∀ e, outcome.1 = .error e → outcome.2 = final C s (steps.take i)) ∧
    runWith C s (succeeding C s steps) =
      (runWith C s steps).filter (fun outcome => outcome.1.isOk) ∧
    final C s (succeeding C s steps) = final C s steps := by
  refine ⟨?_, runWith_succeeding C s steps, final_succeeding C s steps⟩
  intro i step at_i
  refine ⟨step.exec C (final C s (steps.take i)), ?_, (final_take_succ at_i).symm, ?_, ?_⟩
  · rw [getElem?_runWith, at_i]
    rfl
  · exact step.exec_confined C _
  · intro e failed
    exact Step.exec_of_error failed

/-- Of six steps three fail: a sum of no terms, a table that is too long and one that is no table.
The others overlap, and the last reads what the one before it stored. -/
theorem failed_steps_leave_no_trace_interleaved :
    let s : State 15 := ⟨[.one, .epsilon, ⟨-3⟩], List.replicate 9 0xAA⟩
    let product : Step := .set 1 (.dot ⟨0, 2⟩ ⟨1, 2⟩ 2)
    let stored : Step := .store ⟨1, 2⟩ ⟨1, 8⟩
    let loaded : Step := .load ⟨5, 4⟩ ⟨0, 3⟩
    let steps : List Step := [.set 2 (.dot ⟨0, 2⟩ ⟨1, 2⟩ 0), product, .store ⟨0, 3⟩ ⟨1, 8⟩, stored,
      .load ⟨0, 7⟩ ⟨0, 3⟩, loaded]
    succeeding .littleEndian s steps = [product, stored, loaded] ∧
      final .littleEndian s [product, stored, loaded] = final .littleEndian s steps ∧
      (runWith .littleEndian s [product, stored, loaded]).length = 3 ∧
      final .littleEndian s steps =
        ⟨[⟨-3⟩, .zero, ⟨-3⟩], [0xAA, 0, 0, 0, 0, 0xFD, 0xFF, 0xFF, 0xFF]⟩ := by
  intro s product stored loaded steps
  have kept : succeeding .littleEndian s steps = [product, stored, loaded] := by decide
  obtain ⟨-, outcomes, same⟩ := failed_steps_leave_no_trace .littleEndian s steps
  rw [kept] at outcomes same
  refine ⟨kept, same, ?_, by decide⟩
  rw [outcomes]
  decide

end FixedPoint.Machine
