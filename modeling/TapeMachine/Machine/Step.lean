import TapeMachine.Machine.Plan

/-!
# Running a machine

* `Machine.step` executes one instruction, with the console's answer if the instruction asks for
  one; a stopped machine does not change any more (`Machine.step_of_stopped`);
* `Machine.stepN` makes a number of steps;
* `Machine.runFuel` does the same but stops counting when the machine stops;
* `Machine.run` goes on until the machine stops, if it ever does.
-/

namespace TapeMachine

namespace Machine

variable {κ : Type} [Console κ]

/-- The opcode at the instruction pointer, or nothing at the end of the tape. -/
def fetch (m : Machine) : Except Fault (Option Opcode) :=
  if m.ip = m.tape.capacity then .ok none
  else do
    let b ← m.tape.readByte m.ip
    match Opcode.ofByte? b with
    | some op => return some op
    | none => .error (.unknownOpcode b m.ip)

/-- Stop with a fault. -/
def fail (m : Machine) (e : Fault) : Machine := { m with status := .faulted e }

/-- Count an instruction. -/
def count (m : Machine) : Machine := { m with steps := m.steps + 1 }

/-- What becomes of a machine at its console once an instruction has done its work or failed. -/
def conclude (op : Opcode) : EStateM.Result Fault (Machine × κ) Sequel → Machine × κ
  | .ok .advance (m, c) => ({ m with ip := m.ip + op.size }, c)
  | .ok .stay (m, c) => (m, c)
  | .ok .halt (m, c) => ({ m with status := .halted }, c)
  | .error e (m, c) => (m.fail e, c)

/-- Execute an instruction that has been fetched. -/
def execute (m : Machine) (op : Opcode) (c : κ) : Machine × κ :=
  conclude op (Action.perform op (m.count, c))

/-- Execute one instruction.  Running off the end of the tape halts, and a stopped machine stays
as it is. -/
def step (m : Machine) (c : κ) : Machine × κ :=
  if m.status.isRunning then
    match m.fetch with
    | .error e => (m.fail e, c)
    | .ok none => ({ m with status := .halted }, c)
    | .ok (some op) => m.execute op c
  else (m, c)

theorem step_of_stopped {m : Machine} (h : m.status ≠ .running) (c : κ) : m.step c = (m, c) := by
  simp [step, h]

/-- Whether the next step is going to ask the console for a line. -/
def awaitsLine (m : Machine) : Bool :=
  match m.status, m.fetch with
  | .running, .ok (some op) =>
    match m.objection? op, m.intent op with
    | none, .ask .readNumber _ => true
    | none, .ask .readText _ => true
    | _, _ => false
  | _, _ => false

/-- Make `n` steps. -/
def stepN : Nat → Machine → κ → Machine × κ
  | 0, m, c => (m, c)
  | n + 1, m, c =>
    let (m, c) := m.step c
    stepN n m c

/-- Make at most `n` steps and stop early when the machine stops.  The first component is what is
left of `n`; the step that stops the machine is not taken off. -/
def runFuel : Nat → Machine → κ → Nat × Machine × κ
  | 0, m, c => (0, m, c)
  | n + 1, m, c =>
    let (m, c) := m.step c
    if m.status.isRunning then runFuel n m c else (n + 1, m, c)

/-- Make steps until the machine stops, and tell how it ended.  A run that never stops has no
result. -/
def run (m : Machine) (c : κ) : Option (Except Fault Unit × Machine × κ) :=
  let (m, c) := m.step c
  match m.status.verdict? with
  | some verdict => some (verdict, m, c)
  | none => m |>.run c
  partial_fixpoint

end Machine

end TapeMachine
