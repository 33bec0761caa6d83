import TapeMachine.Stack
import TapeMachine.Tape

/-!
# The size of a machine
-/

namespace TapeMachine

/-- The sizes a machine is made with. -/
structure Config where
  /-- Number of bytes on the tape. -/
  tapeCapacity : Nat := Tape.defaultCapacity
  /-- Greatest depth of the operand stack. -/
  maxStackDepth : Nat := Stack.defaultLimit
  deriving DecidableEq, Repr

namespace Config

/-- A tape is never longer than this, so that each of its addresses is a word. -/
def maxTapeCapacity : Nat := Word.maxValue

/-- The capacity of the tape that is made. -/
def capacity (c : Config) : Nat := min c.tapeCapacity maxTapeCapacity

end Config

end TapeMachine
