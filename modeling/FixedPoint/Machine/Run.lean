import FixedPoint.Fixed.Dot
import FixedPoint.Fixed.Mul
import FixedPoint.Machine.Step
import FixedPoint.Table

/-!
# Runs of the register machine

A step gives a reply or an error, and the state afterwards. An error does not stop a run. A step
that fails leaves the state as it was (`Step.exec_of_error`), and no step changes the number of
registers or of bytes.
-/

namespace FixedPoint.Machine

variable {F : Nat}

def Constant.value : Constant → Fixed F
  | .zero => .zero
  | .one => .one
  | .two => .two
  | .epsilon => .epsilon
  | .minValue => .minValue
  | .maxValue => .maxValue
  | .default => Inhabited.default

def Arithmetic.apply (op : Arithmetic) (x y : Fixed F) : Fixed F :=
  match op with
  | .add => x + y
  | .sub => x - y
  | .mul => x * y

/-- The value of a register; one that does not exist reads as zero. -/
def State.reg (s : State F) (a : Nat) : Fixed F := s.regs.getD a .zero

/-- The value computed from the registers. -/
def Source.eval (s : State F) : Source → Except Error (Fixed F)
  | .constant c => .ok c.value
  | .word w => .ok ⟨w⟩
  | .int i => .ok (.ofInt i)
  | .narrow acc => .ok (.narrow acc)
  | .floor a => .ok ⟨(s.reg a).floor⟩
  | .frac a => .ok ⟨(s.reg a).frac⟩
  | .neg a => .ok (-s.reg a)
  | .arithmetic op a b => .ok (op.apply (s.reg a) (s.reg b))
  | .dot a b n => Fixed.dot (a.slice s.regs) (b.slice s.regs) n

/-- What a step answers: the new value of its register, or how many bytes or values it moved. -/
inductive Reply (F : Nat) where
  | value (x : Fixed F)
  | count (n : Nat)
  deriving DecidableEq, Repr

/-- The answer to a step and the state after it. -/
abbrev Outcome (F : Nat) : Type := Except Error (Reply F) × State F

/-- Tables are packed by the codec; no other step depends on it. -/
def Step.exec (C : Word.Codec) (s : State F) : Step → Outcome F
  | .set d source =>
    match source.eval s with
    | .ok x => (.ok (.value x), { s with regs := s.regs.set d x })
    | .error e => (.error e, s)
  | .store regs mem =>
    let (written, part) := Table.storeWith C (regs.slice s.regs) (mem.slice s.mem)
    (written.map .count, { s with mem := mem.splice part s.mem })
  | .load mem regs =>
    let (read, part) := Table.loadWith C (mem.slice s.mem) (regs.slice s.regs)
    (read.map .count, { s with regs := regs.splice part s.regs })

/-- The outcomes of the steps, in order. -/
def runWith (C : Word.Codec) (s : State F) : List Step → List (Outcome F)
  | [] => []
  | step :: steps =>
    let outcome := step.exec C s
    outcome :: runWith C outcome.2 steps

/-- The run with the least significant byte of a word first. -/
def run : State F → List Step → List (Outcome F) := runWith .littleEndian

/-- The state after all steps. -/
def final (C : Word.Codec) (s : State F) (steps : List Step) : State F :=
  steps.foldl (fun s step => (step.exec C s).2) s

theorem runWith_cons (C : Word.Codec) (s : State F) (step : Step) (steps : List Step) :
    runWith C s (step :: steps) = step.exec C s :: runWith C (step.exec C s).2 steps := rfl

theorem final_cons (C : Word.Codec) (s : State F) (step : Step) (steps : List Step) :
    final C s (step :: steps) = final C (step.exec C s).2 steps := rfl

theorem final_append (C : Word.Codec) (s : State F) (steps more : List Step) :
    final C s (steps ++ more) = final C (final C s steps) more := List.foldl_append

theorem Step.exec_store (C : Word.Codec) (s : State F) (regs mem : Span) :
    (Step.store regs mem).exec C s =
      ((Table.storeWith C (regs.slice s.regs) (mem.slice s.mem)).1.map .count,
        { s with
          mem := mem.splice (Table.storeWith C (regs.slice s.regs) (mem.slice s.mem)).2 s.mem }) :=
  rfl

theorem Step.exec_load (C : Word.Codec) (s : State F) (mem regs : Span) :
    (Step.load mem regs).exec C s =
      ((Table.loadWith C (mem.slice s.mem) (regs.slice s.regs)).1.map .count,
        { s with
          regs :=
            regs.splice (Table.loadWith C (mem.slice s.mem) (regs.slice s.regs)).2 s.regs }) :=
  rfl

/-- A step that fails changes nothing. -/
theorem Step.exec_of_error {C : Word.Codec} {s : State F} {step : Step} {e : Error}
    (h : (step.exec C s).1 = .error e) : (step.exec C s).2 = s := by
  cases step with
  | set d source =>
    simp only [exec] at h ⊢
    split at h <;> simp_all
  | store regs mem =>
    rw [exec_store] at h ⊢
    cases written : (Table.storeWith C (regs.slice s.regs) (mem.slice s.mem)).1 with
    | ok n => simp [written, Except.map] at h
    | error e => rw [Table.snd_storeWith_of_error written, Span.splice_slice]
  | load mem regs =>
    rw [exec_load] at h ⊢
    cases read : (Table.loadWith C (mem.slice s.mem) (regs.slice s.regs)).1 with
    | ok n => simp [read, Except.map] at h
    | error e => rw [Table.snd_loadWith_of_error read, Span.splice_slice]

/-- No step adds or removes a register. -/
theorem Step.length_regs_exec (C : Word.Codec) (s : State F) (step : Step) :
    (step.exec C s).2.regs.length = s.regs.length := by
  cases step with
  | set d source =>
    simp only [exec]
    split
    · exact List.length_set
    · rfl
  | store regs mem => rfl
  | load mem regs => exact Span.length_splice (Table.length_snd_loadWith _ _ _)

/-- No step adds or removes a byte. -/
theorem Step.length_mem_exec (C : Word.Codec) (s : State F) (step : Step) :
    (step.exec C s).2.mem.length = s.mem.length := by
  cases step with
  | set d source =>
    simp only [exec]
    split <;> rfl
  | store regs mem => exact Span.length_splice (Table.length_snd_storeWith _ _ _)
  | load mem regs => rfl

theorem length_regs_final (C : Word.Codec) (s : State F) (steps : List Step) :
    (final C s steps).regs.length = s.regs.length := by
  induction steps generalizing s with
  | nil => rfl
  | cons step steps ih => rw [final_cons, ih, step.length_regs_exec]

end FixedPoint.Machine
