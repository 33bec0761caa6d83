import TapeMachine.Assembly.Source
import TapeMachine.Console.Script
import TapeMachine.Machine.Step

/-!
# Running a program text on an input text

`Batch.run` assembles a program, runs it on the lines of an input, and returns all it printed.  What
kept it from halting is reported on a last line.
-/

namespace TapeMachine

namespace Batch

/-- Number of steps after which a program is cut off. -/
def stepBudget : Nat := 100000

/-- What the shell says when it starts. -/
def greeting : String := "tapevm: WASM shell online. Call run_source(source, input)."

/-- What is added to the output of a program that ended in the given state. -/
def epilogue (m : Machine) : String :=
  match m.status with
  | .halted => ""
  | .faulted e => s!"\n[tapevm] fault at {m.ip}: {e.message}"
  | .running => s!"\n[tapevm] stopped after {stepBudget} steps"

/-- The output of a program text on an input text. -/
def run (source input : String) : String :=
  match assemble source with
  | .error e => s!"[tapevm] assembly error: {e.message}"
  | .ok image =>
    match Machine.withProgram image with
    | .error e => s!"[tapevm] {e.message}"
    | .ok m =>
      let console := Script.ofLines ((Text.lines input.toList).map String.ofList)
      let (_, m, console) := m.runFuel stepBudget console
      console.output ++ epilogue m

end Batch

end TapeMachine
