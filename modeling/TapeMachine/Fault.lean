import TapeMachine.Text.Basic
import TapeMachine.Word

/-!
# Faults

A `Fault` is the reason why an operation on the machine failed.  `Fault.kind` is its category and
`Fault.message` its wording.
-/

namespace TapeMachine

/-- Why an operation failed. -/
inductive Fault
  /-- An access of `width` bytes at `address` does not lie on a tape of `capacity` bytes. -/
  | bounds (address : Int) (width capacity : Nat)
  /-- `instruction` needs `required` stack entries and found `available`. -/
  | stackUnderflow (instruction : String) (required available : Nat)
  /-- The stack would grow beyond `limit` entries. -/
  | stackOverflow (limit : Nat)
  /-- `instruction` divided by zero. -/
  | divisionByZero (instruction : String)
  /-- The byte at `address` is no opcode. -/
  | unknownOpcode (opcode : UInt8) (address : Nat)
  /-- The console delivered a line of the wrong form. -/
  | malformedInput (text : String)
  /-- The console failed. -/
  | consoleFailure (text : String)
  /-- An image of `length` bytes does not fit on a tape of `capacity` bytes. -/
  | imageTooLong (length capacity : Nat)
  deriving DecidableEq, Repr

/-- The category of a fault. -/
inductive Fault.Kind
  | bounds
  | stackUnderflow
  | stackOverflow
  | divisionByZero
  | unknownOpcode
  | malformedInput
  | consoleFailure
  | imageTooLong
  deriving DecidableEq, Repr

/-- The category of a fault. -/
def Fault.kind : Fault → Fault.Kind
  | bounds .. => .bounds
  | stackUnderflow .. => .stackUnderflow
  | stackOverflow .. => .stackOverflow
  | divisionByZero .. => .divisionByZero
  | unknownOpcode .. => .unknownOpcode
  | malformedInput .. => .malformedInput
  | consoleFailure .. => .consoleFailure
  | imageTooLong .. => .imageTooLong

/-- The wording of a fault. -/
def Fault.message : Fault → String
  | bounds address width capacity =>
    s!"address {address} (width {width}) is outside the tape [0, {capacity})"
  | stackUnderflow instruction required available =>
    s!"{instruction} needs {required} stack operand(s) but only {available} present"
  | stackOverflow limit => s!"operand stack exceeded its limit of {limit} entries"
  | divisionByZero instruction => s!"{instruction}: division by zero"
  | unknownOpcode opcode address => s!"unknown opcode 0x{Text.hexByte opcode} at address {address}"
  | malformedInput text => s!"malformed input: {text}"
  | consoleFailure text => s!"console failure: {text}"
  | imageTooLong length capacity =>
    s!"program image of {length} bytes exceeds tape capacity {capacity}"

/-- The value of `a op b`, or the fault of a division by zero. -/
def Operator.apply (op : Operator) (a b : Word) : Except Fault Word :=
  match op.eval? a b with
  | some v => .ok v
  | none => .error (.divisionByZero op.mnemonic)

end TapeMachine
