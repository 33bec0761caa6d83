import TapeMachine.Command.Run

/-!
# The command line program

The session is stepped one instruction at a time, so that what it prints appears at once and a line
of input is only waited for when the program asks for one.
-/

namespace TapeMachine

namespace Command

/-- Read up to and including the next newline. -/
partial def readLine (stdin : IO.FS.Stream) (line : List UInt8) : IO (List UInt8) := do
  let bytes ← stdin.read 1
  match bytes.toList with
  | [] => return line.reverse
  | b :: _ => if b = Streams.newline then return (b :: line).reverse else readLine stdin (b :: line)

/-- Print what a session has to say and forget it. -/
def emit (s : Session Streams) : IO (Session Streams) := do
  if !s.console.output.isEmpty then
    let stdout ← IO.getStdout
    stdout.write ⟨s.console.output⟩
    stdout.flush
  if s.journal != "" then
    IO.eprint s.journal
  return { s with console := { s.console with output := #[] }, journal := "" }

/-- Run a session to its end. -/
partial def drive (stdin : IO.FS.Stream) (fuel : Nat) (s : Session Streams) :
    IO (Session Streams) := do
  if fuel = 0 || !s.machine.status.isRunning then return s
  let s ← if s.machine.awaitsLine && s.console.input.isEmpty then do
      let line ← readLine stdin []
      pure { s with console := { s.console with input := line } }
    else pure s
  let s ← emit s.step
  drive stdin (if s.machine.status.isRunning then fuel - 1 else fuel) s

/-- Why the system could not read a file, from the number of the error, which may be negated, and
its text. -/
def fileError (code : UInt32) (text : String) : FileError :=
  let number := if code.toNat < 0x80000000 then code.toNat else UInt32.size - code.toNat
  match number with
  | 2 => .notFound
  | 20 => .notDirectory
  | 21 => .isDirectory
  | 36 => .nameTooLong
  | _ => .other s!"{text} (os error {number})"

/-- The bytes of a file. -/
def readFile (path : String) : IO (Except FileError (Array UInt8)) := do
  try
    let bytes ← IO.FS.readBinFile path
    return .ok bytes.data
  catch e =>
    match e with
    | .noFileOrDirectory _ code text => return .error (fileError code text)
    | .inappropriateType _ code text => return .error (fileError code text)
    | .invalidArgument _ code text => return .error (fileError code text)
    | .permissionDenied _ code text => return .error (fileError code text)
    | .otherError code text => return .error (fileError code text)
    | e => return .error (.other (toString e))

/-- The environment variables that matter. -/
def readEnvironment : IO Environment := do
  let names := [Environment.logVariable, Environment.colorVariable]
  let values ← names.mapM fun name => do
    return (← IO.getEnv name).map fun value => (name, value)
  return ⟨values.filterMap id⟩

/-- Print how a command ended. -/
def finish (outcome : Outcome) : IO UInt32 := do
  let stdout ← IO.getStdout
  stdout.write ⟨outcome.stdout⟩
  stdout.flush
  IO.eprint outcome.stderr
  return outcome.code.toUInt32

end Command

end TapeMachine

open TapeMachine.Command in
/-- Carry out the command line. -/
def main (arguments : List String) : IO UInt32 := do
  match Invocation.parse arguments with
  | .error e => finish { code := usageCode, stderr := s!"tapevm: {e.message}\n\n{usage}" }
  | .ok .version => finish { code := haltedCode, stdout := textBytes versionLine }
  | .ok .help => finish { code := haltedCode, stdout := textBytes usage }
  | .ok (.run options) =>
    match prepare options (← readEnvironment) (← readFile options.program) [] with
    | .finished outcome => finish outcome
    | .ready session fuel =>
      let session ← drive (← IO.getStdin) fuel (← emit session)
      finish (conclude options session)
