import TapeMachine.Log
import TapeMachine.Machine.Step
import TapeMachine.Text.Basic

/-!
# The journal of a run

What a machine has to say about itself: an entry for each load, each instruction dispatched, each
halt and each fault.  Each entry is read off a state of the machine, so keeping a journal changes
nothing.
-/

namespace TapeMachine

namespace Machine

/-- The entry of a load. -/
def loadEntry (m : Machine) (image : Array UInt8) : Log.Entry :=
  ⟨.info, s!"loaded {image.size} byte image into {m.tape.capacity} byte tape"⟩

/-- The entry of dispatching an instruction. -/
def dispatchEntry (m : Machine) (op : Opcode) : Log.Entry :=
  let address := Text.padLeft 5 '0' (toString m.ip)
  ⟨.debug, s!"{address} {Text.padRight 12 op.mnemonic} depth={m.stack.depth}"⟩

/-- The entry of the instruction that a step is going to dispatch. -/
def dispatchEntries (m : Machine) : List Log.Entry :=
  match m.status, m.fetch with
  | .running, .ok (some op) => [m.dispatchEntry op]
  | _, _ => []

/-- The entry of the status that stopped the machine. -/
def stopEntries (m : Machine) : List Log.Entry :=
  match m.status with
  | .running => []
  | .halted => [⟨.info, s!"halted at {m.ip} after {m.steps} steps"⟩]
  | .faulted e => [⟨.error, s!"fault at {m.ip} after {m.steps} steps: {e.message}"⟩]

end Machine

end TapeMachine
