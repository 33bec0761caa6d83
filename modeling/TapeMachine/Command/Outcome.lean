import TapeMachine.Log

/-!
# Commands and their surroundings

A command sees environment variables and ends with an exit code and two output streams.
-/

namespace TapeMachine

namespace Command

/-- How a command ended. -/
structure Outcome where
  /-- The exit code. -/
  code : Nat
  /-- The bytes on the standard output. -/
  stdout : Array UInt8 := #[]
  /-- The text on the standard error output. -/
  stderr : String := ""
  deriving DecidableEq, Repr

/-- The environment variables, by name. -/
structure Environment where
  /-- The variables with their values. -/
  entries : List (String × String) := []
  deriving DecidableEq, Repr

namespace Environment

/-- The value of a variable. -/
def get? (env : Environment) (name : String) : Option String := env.entries.lookup name

/-- The variable that sets the log threshold. -/
def logVariable : String := "TAPEVM_LOG"

/-- The variable that asks for colors on outputs that are no terminals. -/
def colorVariable : String := "CLICOLOR_FORCE"

/-- Whether colors are asked for: any value of the variable but `0` does. -/
def colored (env : Environment) : Bool :=
  match env.get? colorVariable with
  | some value => value != "0"
  | none => false

/-- How log entries are shown, and the entries that complain about the environment. -/
def logSettings (env : Environment) : Log.Settings × List Log.Entry :=
  let settings : Log.Settings := { colored := env.colored }
  match env.get? logVariable with
  | none => (settings, [])
  | some text =>
    match Log.Level.parse text with
    | .ok threshold => ({ settings with threshold }, [])
    | .error name =>
      (settings, [⟨.warn, s!"{logVariable}: {Log.Level.unknownMessage name}"⟩])

end Environment

end Command

end TapeMachine
