import TapeMachine.Config
import TapeMachine.Flags

/-!
# The machine

A machine is a tape that holds program and data, an operand stack, the flags, the address of the
next instruction, a count of the instructions dispatched, and a status.  `Machine.new` makes one,
`Machine.reload` puts a program on it in place, and `Machine.load` gives the machine that results.
-/

namespace TapeMachine

/-- Whether a machine is running, and if not, why. -/
inductive Status
  | running
  | halted
  | faulted (fault : Fault)
  deriving DecidableEq, Repr

namespace Status

/-- The name of a status. -/
def name : Status → String
  | running => "running"
  | halted => "halted"
  | faulted _ => "faulted"

/-- The fault of a faulted machine. -/
def fault? : Status → Option Fault
  | faulted e => some e
  | _ => none

/-- How a run has ended, once it has. -/
def verdict? : Status → Option (Except Fault Unit)
  | running => none
  | halted => some (.ok ())
  | faulted e => some (.error e)

/-- Whether the machine is running. -/
def isRunning : Status → Bool
  | running => true
  | _ => false

@[simp] theorem isRunning_iff {s : Status} : s.isRunning = true ↔ s = .running := by
  cases s <;> simp [isRunning]

end Status

/-- The state of a machine. -/
structure Machine where
  /-- Program and data. -/
  tape : Tape
  /-- The operand stack. -/
  stack : Stack
  /-- The flags that conditional jumps read. -/
  flags : Flags
  /-- The address of the next instruction. -/
  ip : Nat
  /-- Number of instructions dispatched since the last load, a faulting one included. -/
  steps : Nat
  /-- Whether the machine is running. -/
  status : Status
  deriving DecidableEq

namespace Machine

/-- A running machine with a blank tape. -/
def new (config : Config) : Machine where
  tape := .blank config.capacity
  stack := .empty config.maxStackDepth
  flags := .clear
  ip := 0
  steps := 0
  status := .running

/-- Put an image on the tape and start afresh at address 0.  The parts of the machine are changed in
place, one after the other; what was changed before a failure stays changed. -/
def reload (image : Array UInt8) : EStateM Fault Machine Unit := do
  match (← get).tape.load image with
  | .ok tape => modify ({ · with tape })
  | .error e => throw e
  modify fun m => { m with stack := m.stack.clear }
  modify ({ · with flags := .clear })
  modify ({ · with ip := 0 })
  modify ({ · with steps := 0 })
  modify ({ · with status := .running })

/-- The machine with an image put on it, or the reason why there is none. -/
def load (m : Machine) (image : Array UInt8) : Except Fault Machine :=
  match reload image m with
  | .ok _ m => .ok m
  | .error e _ => .error e

/-- A machine of the default size with an image loaded. -/
def withProgram (image : Array UInt8) : Except Fault Machine := (new {}).load image

/-- The machine with another tape and all the rest reset. -/
def restart (m : Machine) (tape : Tape) : Machine where
  tape
  stack := m.stack.clear
  flags := .clear
  ip := 0
  steps := 0
  status := .running

variable {m : Machine} {image : Array UInt8} {tape : Tape} {e : Fault}

/-- When the tape takes the image, all the rest is reset. -/
theorem reload_of_ok (h : m.tape.load image = .ok tape) :
    reload image m = .ok () (m.restart tape) := by
  have hget : (get : EStateM Fault Machine Machine) m = .ok m m := rfl
  simp only [reload, bind, EStateM.bind, hget, h]
  rfl

/-- When the tape refuses the image, nothing has been changed yet. -/
theorem reload_of_error (h : m.tape.load image = .error e) : reload image m = .error e m := by
  have hget : (get : EStateM Fault Machine Machine) m = .ok m m := rfl
  simp only [reload, bind, EStateM.bind, hget, h]
  rfl

theorem load_of_ok (h : m.tape.load image = .ok tape) : m.load image = .ok (m.restart tape) := by
  rw [load, reload_of_ok h]

theorem load_of_error (h : m.tape.load image = .error e) : m.load image = .error e := by
  rw [load, reload_of_error h]

/-- A machine that comes out of a load is one that starts afresh. -/
theorem exists_restart_of_load {m' : Machine} (h : m.load image = .ok m') :
    ∃ tape, m.tape.load image = .ok tape ∧ m' = m.restart tape := by
  cases ht : m.tape.load image with
  | error e =>
    rw [load_of_error ht] at h
    cases h
  | ok tape =>
    rw [load_of_ok ht] at h
    cases h
    exact ⟨tape, rfl, rfl⟩

end Machine

end TapeMachine
