import TapeMachine.Config
import TapeMachine.Text.Basic

/-!
# The command line

Arguments are read from left to right.  Options with a value take it from behind an equals sign or
from the next argument, which must then not start with a hyphen; no option may be given twice; and
exactly one argument names the program.  Asking for the version or for help ends the reading.
-/

namespace TapeMachine

namespace Command

/-- Why a command line is refused. -/
inductive UsageError
  | unknownOption (argument : String)
  | missingValue (option : String)
  | unwantedValue (option : String)
  | invalidValue (option value : String)
  | repeatedOption (option : String)
  | unexpectedArgument (argument : String)
  | conflict (first second : String)
  | missingProgram
  deriving DecidableEq, Repr

/-- The wording of a refusal. -/
def UsageError.message : UsageError → String
  | unknownOption argument => s!"unknown option '{argument}'"
  | missingValue option => s!"option '{option}' needs a value"
  | unwantedValue option => s!"option '{option}' takes no value"
  | invalidValue option value => s!"invalid value '{value}' for '{option}'"
  | repeatedOption option => s!"option '{option}' was given more than once"
  | unexpectedArgument argument => s!"unexpected argument '{argument}'"
  | conflict first second => s!"'{first}' cannot be used together with '{second}'"
  | missingProgram => "the program is missing"

/-- What a run is asked to do. -/
structure Options where
  /-- The path of the program. -/
  program : String
  /-- The sizes of the machine. -/
  config : Config := {}
  /-- The number of steps after which to stop, if there is one. -/
  maxSteps : Option Nat := none
  /-- Whether to show the last state of the machine. -/
  dumpState : Bool := false
  /-- Whether to list the image instead of running it. -/
  disassemble : Bool := false
  /-- Whether to log loads and halts. -/
  verbose : Bool := false
  /-- Whether to log every instruction. -/
  trace : Bool := false
  deriving DecidableEq, Repr

/-- What a command line asks for. -/
inductive Invocation
  | run (options : Options)
  | version
  | help
  deriving DecidableEq, Repr

/-- The arguments read so far. -/
structure Given where
  program : Option String := none
  tape : Option Nat := none
  maxStack : Option Nat := none
  maxSteps : Option Nat := none
  dumpState : Bool := false
  disassemble : Bool := false
  verbose : Bool := false
  trace : Bool := false
  deriving DecidableEq, Repr

namespace Given

/-- Take in the program. -/
def argument (g : Given) (text : String) : Except UsageError Given :=
  if text = "" ∨ g.program.isSome then .error (.unexpectedArgument text)
  else .ok { g with program := some text }

/-- Take in an option with the number it is given. -/
def number (g : Given) (option value : String) : Except UsageError Given :=
  match Text.readCount value.toList with
  | none => .error (.invalidValue option value)
  | some n =>
    let set (old : Option Nat) (new : Given) : Except UsageError Given :=
      if old.isSome then .error (.repeatedOption option) else .ok new
    if option = "--tape" then set g.tape { g with tape := some n }
    else if option = "--max-stack" then set g.maxStack { g with maxStack := some n }
    else if option = "--max-steps" then set g.maxSteps { g with maxSteps := some n }
    else .error (.unknownOption option)

/-- The options that take a number. -/
def takesNumber (option : String) : Bool :=
  option == "--tape" || option == "--max-stack" || option == "--max-steps"

/-- Take in an option that is given or not. -/
def switch (g : Given) (option : String) : Except UsageError Given :=
  let set (old : Bool) (new : Given) : Except UsageError Given :=
    if old then .error (.repeatedOption option) else .ok new
  if option = "--dump-state" then set g.dumpState { g with dumpState := true }
  else if option = "--disasm" then set g.disassemble { g with disassemble := true }
  else if option = "--verbose" ∨ option = "-v" then set g.verbose { g with verbose := true }
  else if option = "--trace" then set g.trace { g with trace := true }
  else .error (.unknownOption option)

/-- Take in the letters behind a single hyphen. -/
def letters (g : Given) : List Char → Except UsageError (Given ⊕ Invocation)
  | [] => .ok (.inl g)
  | 'V' :: _ => .ok (.inr .version)
  | 'h' :: _ => .ok (.inr .help)
  | c :: cs => do
    let g ← g.switch (String.ofList ['-', c])
    g.letters cs

/-- What the arguments ask for once all have been read. -/
def finish (g : Given) : Except UsageError Invocation :=
  if g.verbose ∧ g.trace then .error (.conflict "--verbose" "--trace")
  else
    match g.program with
    | none => .error .missingProgram
    | some program =>
      let default : Config := {}
      .ok (.run {
        program
        config := ⟨g.tape.getD default.tapeCapacity, g.maxStack.getD default.maxStackDepth⟩
        maxSteps := g.maxSteps
        dumpState := g.dumpState
        disassemble := g.disassemble
        verbose := g.verbose
        trace := g.trace })

/-- Whether an argument is written like an option.  A single hyphen is not. -/
def isOption (argument : String) : Bool :=
  match argument.toList with
  | '-' :: _ :: _ => true
  | _ => false

/-- The name of an option that starts with two hyphens, and the value behind its equals sign. -/
def splitOption (argument : String) : String × Option String :=
  let cs := argument.toList
  let name := String.ofList (cs.takeWhile (· ≠ '='))
  match cs.dropWhile (· ≠ '=') with
  | [] => (name, none)
  | _ :: value => (name, some (String.ofList value))

/-- Read the arguments that are left. -/
def read (g : Given) : List String → Except UsageError Invocation
  | [] => g.finish
  | "--" :: rest => do
    let g ← rest.foldlM argument g
    g.finish
  | arg :: rest =>
    if !isOption arg then do
      let g ← g.argument arg
      g.read rest
    else if arg.startsWith "--" then
      match splitOption arg with
      | ("--version", none) => .ok .version
      | ("--help", none) => .ok .help
      | (option, some value) =>
        if takesNumber option then do
          let g ← g.number option value
          g.read rest
        else .error (.unwantedValue option)
      | (option, none) =>
        if takesNumber option then
          match rest with
          | value :: rest =>
            if isOption value then .error (.missingValue option)
            else do
              let g ← g.number option value
              g.read rest
          | [] => .error (.missingValue option)
        else do
          let g ← g.switch option
          g.read rest
    else do
      match ← g.letters (arg.toList.drop 1) with
      | .inl g => g.read rest
      | .inr invocation => .ok invocation

end Given

/-- What a command line asks for. -/
def Invocation.parse (arguments : List String) : Except UsageError Invocation :=
  Given.read {} arguments

end Command

end TapeMachine
