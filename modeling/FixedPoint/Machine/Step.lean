import FixedPoint.Error
import FixedPoint.Fixed.Basic
import FixedPoint.Span

namespace FixedPoint.Machine

/-- Registers hold values of one format and are named by number. Memory holds bytes. -/
structure State (F : Nat) where
  regs : List (Fixed F)
  mem : List UInt8
  deriving DecidableEq, Repr

inductive Constant where
  | zero
  | one
  | two
  | epsilon
  | minValue
  | maxValue
  | default
  deriving DecidableEq, Repr

inductive Arithmetic where
  | add
  | sub
  | mul
  deriving DecidableEq, Repr

/-- How the value of a register is computed. The whole part and the fraction of a register are
taken as words. -/
inductive Source where
  | constant (c : Constant)
  | word (w : Int32)
  | int (i : Int32)
  | narrow (acc : Int64)
  | floor (a : Nat)
  | frac (a : Nat)
  | neg (a : Nat)
  | arithmetic (op : Arithmetic) (a b : Nat)
  | dot (a b : Span) (n : Nat)
  deriving DecidableEq, Repr

/-- Sets one register, or moves a table between a span of registers and a span of memory. -/
inductive Step where
  | set (d : Nat) (source : Source)
  | store (regs mem : Span)
  | load (mem regs : Span)
  deriving DecidableEq, Repr

/-- The step that combines register `d` with register `a` and puts the result into `d`. -/
def Step.update (op : Arithmetic) (d a : Nat) : Step := .set d (.arithmetic op d a)

/-- All registers that are read exist among `size` registers. -/
def Source.Within (size : Nat) : Source → Prop
  | .constant _ | .word _ | .int _ | .narrow _ => True
  | .floor a | .frac a | .neg a => a < size
  | .arithmetic _ a b => a < size ∧ b < size
  | .dot a b _ => Span.Within a size ∧ Span.Within b size

instance (size : Nat) (source : Source) : Decidable (source.Within size) := by
  cases source <;> unfold Source.Within <;> infer_instance

/-- All registers and bytes that a step names exist. -/
def Step.Within {F : Nat} (s : State F) : Step → Prop
  | .set d source => d < s.regs.length ∧ source.Within s.regs.length
  | .store regs mem => regs.Within s.regs.length ∧ mem.Within s.mem.length
  | .load mem regs => mem.Within s.mem.length ∧ regs.Within s.regs.length

instance {F : Nat} (s : State F) (step : Step) : Decidable (step.Within s) := by
  cases step <;> unfold Step.Within <;> infer_instance

end FixedPoint.Machine
