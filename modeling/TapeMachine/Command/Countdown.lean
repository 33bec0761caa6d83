import TapeMachine.Command.Outcome
import TapeMachine.Console.Streams
import TapeMachine.Demo
import TapeMachine.Session

/-!
# The countdown as a command
-/

namespace TapeMachine

namespace Command

/-- Where the countdown starts. -/
def countdownStart : Word := 5

/-- Number of steps after which the countdown is cut off. -/
def countdownFuel : Nat := 10000

/-- Run the countdown at the standard output. -/
def countdown (env : Environment) : Outcome :=
  let (log, complaints) := env.logSettings
  let shown := String.join (complaints.map (Log.Entry.render log.colored))
  match Demo.countdownImage countdownStart with
  | .error e => { code := 1, stderr := s!"{shown}demo: {e.message}\n" }
  | .ok image =>
    match Session.start log {} image (Streams.ofBytes []) with
    | .error e => { code := 2, stderr := s!"{shown}demo: {e.message}\n" }
    | .ok session =>
      let session := session.run countdownFuel
      let stdout := session.console.output
      let shown := shown ++ session.journal
      match session.machine.status with
      | .halted => { code := 0, stdout, stderr := shown }
      | status => { code := 2, stdout, stderr := s!"{shown}demo: stopped while {status.name}\n" }

end Command

end TapeMachine
