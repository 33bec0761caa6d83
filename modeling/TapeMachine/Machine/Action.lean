import TapeMachine.Console
import TapeMachine.Machine.Basic
import TapeMachine.Opcode
import TapeMachine.Text.Utf8

/-!
# Instructions at work

An instruction reads the tape, takes entries off the stack, puts others on it, writes on the tape and
talks to the console, one thing after the other, and each of them may fail.  An `Action` is such a
sequence.  It changes the machine in place: what was changed before a failure stays changed.

* `Action.look`, `Action.view`, `Action.operands`, `Action.push`, `Action.pop`, `Action.write`,
  `Action.goTo`, `Action.setFlags` and `Action.ask` are the things an action is made of;
* `Action.perform` is the action of each instruction.
-/

namespace TapeMachine

namespace Machine

variable (m : Machine)

/-- Read the word behind the opcode. -/
def readImmediate : Except Fault Word := m.tape.readWord (m.ip + 1)

/-- The address a jump to `destination` leads to. -/
def target (destination : Word) : Except Fault Nat := m.tape.address destination 1

/-- The start and the length of the region that two words denote. -/
def region (address length : Word) : Except Fault (Nat × Nat) :=
  if length < 0 then .error (m.tape.outside (address.toInt + length.toInt) 0)
  else do
    let start ← m.tape.address address length.toInt.toNat
    return (start, length.toInt.toNat)

/-- The entry that `READ_STRING` leaves for a line that does not fit. -/
def lineTooLong : Word := -1

end Machine

/-- Something done to a machine at its console.  A failure keeps the state it is met in. -/
abbrev Action (κ : Type) := EStateM Fault (Machine × κ)

namespace Action

variable {κ α : Type}

/-- Look something up, which may fail and changes nothing. -/
@[inline] def look (f : Machine → Except Fault α) : Action κ α := fun s =>
  match f s.1 with
  | .ok a => .ok a s
  | .error e => .error e s

/-- Look up something that is always there. -/
@[inline] def view (f : Machine → α) : Action κ α := fun s => .ok (f s.1) s

/-- Look up the two top entries of the stack: the one below and the top one. -/
def operands (instruction : String) : Action κ (Word × Word) := do
  look (·.stack.require 2 instruction)
  let b ← look (·.stack.peekAt 0 instruction)
  let a ← look (·.stack.peekAt 1 instruction)
  return (a, b)

/-- Put an entry on the stack. -/
def push (v : Word) : Action κ Unit := fun (m, c) =>
  match m.stack.push v with
  | .ok stack => .ok () ({ m with stack }, c)
  | .error e => .error e (m, c)

/-- Take the top entry off the stack. -/
def pop (instruction : String) : Action κ Word := fun (m, c) =>
  match m.stack.pop instruction with
  | .ok (v, stack) => .ok v ({ m with stack }, c)
  | .error e => .error e (m, c)

/-- Write bytes on the tape. -/
def write (start : Nat) (bytes : List UInt8) : Action κ Unit := fun (m, c) =>
  match m, m.tape.check start bytes.length with
  | ⟨tape, stack, flags, ip, steps, status⟩, .ok _ =>
    .ok () (⟨tape.put start bytes, stack, flags, ip, steps, status⟩, c)
  | m, .error e => .error e (m, c)

/-- Set the instruction pointer. -/
def goTo (address : Nat) : Action κ Unit := fun (m, c) => .ok () ({ m with ip := address }, c)

/-- Change the flags. -/
def setFlags (f : Flags → Flags) : Action κ Unit := fun (m, c) =>
  .ok () ({ m with flags := f m.flags }, c)

/-- Ask the console. -/
def ask [Console κ] (r : Request) : Action κ r.Answer := fun (m, c) =>
  match Console.respond r c with
  | (.ok a, c) => .ok a (m, c)
  | (.error e, c) => .error e.toFault (m, c)

end Action

/-- What is left to do once an instruction has done its work. -/
inductive Sequel
  /-- Move behind the instruction. -/
  | advance
  /-- Nothing: the instruction pointer has been set. -/
  | stay
  /-- Halt. -/
  | halt
  deriving DecidableEq, Repr

namespace Action

/-- What an instruction does, in the order in which it does it. -/
def perform {κ : Type} [Console κ] (op : Opcode) : Action κ Sequel :=
  match op with
  | .nop => return .advance
  | .push | .const => do
    let v ← look (·.readImmediate)
    push v
    return .advance
  | .pop => do
    let _ ← pop op.mnemonic
    return .advance
  | .load => do
    let a ← look (·.stack.peek op.mnemonic)
    let start ← look (·.tape.address a Word.width)
    let v ← look (·.tape.readWord start)
    let _ ← pop op.mnemonic
    push v
    return .advance
  | .store => do
    let (a, v) ← operands op.mnemonic
    let start ← look (·.tape.address a Word.width)
    write start v.encode
    let _ ← pop op.mnemonic
    let _ ← pop op.mnemonic
    return .advance
  | .arith o => do
    let (a, b) ← operands op.mnemonic
    let v ← look fun _ => o.apply a b
    let _ ← pop op.mnemonic
    let _ ← pop op.mnemonic
    push v
    return .advance
  | .call => do
    let a ← look (·.stack.peek op.mnemonic)
    let t ← look (·.target a)
    let back ← view fun m => Int32.ofNat (m.ip + op.size)
    let _ ← pop op.mnemonic
    push back
    goTo t
    return .stay
  | .ret => do
    let a ← look (·.stack.peek op.mnemonic)
    let t ← look (·.target a)
    goTo t
    let _ ← pop op.mnemonic
    return .stay
  | .dup => do
    let v ← look (·.stack.peek op.mnemonic)
    push v
    return .advance
  | .swap => do
    look (·.stack.require 2 op.mnemonic)
    let b ← pop op.mnemonic
    let a ← pop op.mnemonic
    push b
    push a
    return .advance
  | .cmp => do
    look (·.stack.require 2 op.mnemonic)
    let b ← pop op.mnemonic
    let a ← pop op.mnemonic
    setFlags (·.compare a b)
    return .advance
  | .test => do
    let a ← pop op.mnemonic
    setFlags (·.test a)
    return .advance
  | .jump => do
    let destination ← look (·.readImmediate)
    let t ← look (·.target destination)
    goTo t
    return .stay
  | .jumpIf c => do
    let destination ← look (·.readImmediate)
    if ← view (·.flags.holds c) then
      let t ← look (·.target destination)
      goTo t
      return .stay
    else return .advance
  | .printInt => do
    let v ← look (·.stack.peek op.mnemonic)
    ask (.writeNumber v)
    let _ ← pop op.mnemonic
    return .advance
  | .printString => do
    let (a, n) ← operands op.mnemonic
    let (start, length) ← look (·.region a n)
    let bytes ← look (·.tape.readSlice start length)
    ask (.writeText (String.ofList (Utf8.decodeLossy bytes)))
    let _ ← pop op.mnemonic
    let _ ← pop op.mnemonic
    return .advance
  | .readInt => do
    look (·.stack.reserve 1)
    let v ← ask .readNumber
    push v
    return .advance
  | .readString => do
    let (a, n) ← operands op.mnemonic
    let (start, length) ← look (·.region a n)
    let line ← ask .readText
    let bytes := Utf8.encode line.toList
    let _ ← pop op.mnemonic
    let _ ← pop op.mnemonic
    if length < bytes.length then
      push Machine.lineTooLong
    else
      write start bytes
      push (Int32.ofNat bytes.length)
    return .advance
  | .halt => return .halt

end Action

end TapeMachine
