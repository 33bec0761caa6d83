import TapeMachine.Assembly.Source
import TapeMachine.Command.Directory
import TapeMachine.Command.Options
import TapeMachine.Command.Outcome
import TapeMachine.Console.Streams
import TapeMachine.Listing
import TapeMachine.Machine.Snapshot
import TapeMachine.Session

/-!
# Running a program from the command line

A file of program text is assembled first, any other file is an image as it is.  The image is listed
or run at the standard streams, and the exit code tells how the run ended.

* `prepare` does what comes before the first instruction and `conclude` what comes after the last,
  so that the steps between can be made at any pace;
* `run` makes them all at once, and `invoke` does so for a whole command line.
-/

namespace TapeMachine

namespace Command

/-- The name and the version of the program. -/
def versionLine : String := "tapevm 0.1.0\n"

/-- A short description of the command line. -/
def usage : String :=
  "Usage: tapevm [OPTIONS] <PROGRAM>\n\n" ++
  "  --tape <BYTES>     tape capacity in bytes\n" ++
  "  --max-stack <N>    operand stack depth\n" ++
  "  --max-steps <N>    stop after N instructions\n" ++
  "  --dump-state       print the final machine state as JSON on stderr\n" ++
  "  --disasm           print a listing of the image instead of running it\n" ++
  "  -v, --verbose      log loads and halts to stderr\n" ++
  "  --trace            log every executed instruction to stderr\n" ++
  "  -V, --version      print the version\n"

/-- The exit code of a run that halted. -/
def haltedCode : Nat := 0

/-- The exit code of a command that could not start its program. -/
def usageCode : Nat := 1

/-- The exit code of a run that faulted. -/
def faultCode : Nat := 2

/-- The exit code of a run that was cut off. -/
def budgetCode : Nat := 3

/-- A number of steps that no run reaches. -/
def unlimited : Nat := UInt64.size - 1

/-- The bytes of a text. -/
def textBytes (text : String) : Array UInt8 := (Utf8.encode text.toList).toArray

/-- The image of a program, from the bytes of its file, and the log entries of making it. -/
def imageOf (path : String) (content : Except FileError (Array UInt8)) :
    Except String (Array UInt8 × List Log.Entry) := do
  let explain (message : String) : String := s!"{path}: {message}"
  let bytes ← content.mapError fun e => explain e.message
  if Path.isSource path then
    match Utf8.decode? bytes.toList with
    | none => .error (explain FileError.notText.message)
    | some cs =>
      let image ← (assemble (String.ofList cs)).mapError fun e => explain e.message
      return (image, [⟨.info, s!"assembled {path} into {image.size} bytes"⟩])
  else return (bytes, [])

/-- What is left to do once a program has been read. -/
inductive Prepared
  /-- The command is over. -/
  | finished (outcome : Outcome)
  /-- A machine is ready to run for the given number of steps. -/
  | ready (session : Session Streams) (fuel : Nat)

/-- How log entries are shown for a run, and what has been logged before it. -/
def logFor (options : Options) (env : Environment) : Log.Settings × String :=
  let (settings, complaints) := env.logSettings
  let shown := String.join (complaints.map (Log.Entry.render settings.colored))
  if options.trace then ({ settings with threshold := .debug }, shown)
  else if options.verbose then ({ settings with threshold := .info }, shown)
  else (settings, shown)

/-- Everything before the first instruction. -/
def prepare (options : Options) (env : Environment) (content : Except FileError (Array UInt8))
    (input : List UInt8) : Prepared :=
  let (log, shown) := logFor options env
  match imageOf options.program content with
  | .error message =>
    .finished { code := usageCode, stderr := s!"{shown}tapevm: {message}\n" }
  | .ok (image, entries) =>
    let shown := shown ++ log.render entries
    if options.disassemble then
      let lines := (TapeMachine.disassemble image 0 image.size).map fun l => l.text ++ "\n"
      .finished { code := haltedCode, stdout := textBytes (String.join lines), stderr := shown }
    else
      match Session.start log options.config image (Streams.ofBytes input) with
      | .error e =>
        .finished
          { code := usageCode, stderr := s!"{shown}tapevm: {options.program}: {e.message}\n" }
      | .ok s => .ready { s with journal := shown ++ s.journal } (options.maxSteps.getD unlimited)

/-- Everything after the last instruction. -/
def conclude (options : Options) (s : Session Streams) : Outcome :=
  let m := s.machine
  let (code, verdict) := match m.status with
    | .halted => (haltedCode, "")
    | .faulted e => (faultCode, s!"tapevm: fault at address {m.ip}: {e.message}\n")
    | .running =>
      let message := s!"step budget of {m.steps} exhausted at address {m.ip}"
      (budgetCode, s.log.render [⟨.warn, message⟩])
  let dump := if options.dumpState then m.snapshot.render ++ "\n" else ""
  { code, stdout := s.console.output, stderr := s.journal ++ verdict ++ dump }

/-- Run a program to its end. -/
def run (options : Options) (env : Environment) (content : Except FileError (Array UInt8))
    (input : List UInt8) : Outcome :=
  match prepare options env content input with
  | .finished outcome => outcome
  | .ready session fuel => conclude options (session.run fuel)

/-- Carry out a command line in a working directory. -/
def invoke (arguments : List String) (env : Environment) (directory : Directory)
    (input : List UInt8) : Except UsageError Outcome := do
  match ← Invocation.parse arguments with
  | .version => return { code := haltedCode, stdout := textBytes versionLine }
  | .help => return { code := haltedCode, stdout := textBytes usage }
  | .run options => return run options env (directory.read options.program) input

end Command

end TapeMachine
