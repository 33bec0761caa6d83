import TapeMachine.Machine.Journal

/-!
# Sessions

A session is a machine at its console together with the log it writes.  `Session.step` does to
machine and console what `Machine.step` does, and adds what the journal has to say.
-/

namespace TapeMachine

/-- A machine, its console and its log. -/
structure Session (κ : Type) where
  /-- How log entries are shown. -/
  log : Log.Settings
  machine : Machine
  console : κ
  /-- The log so far. -/
  journal : String := ""

namespace Session

variable {κ : Type} [Console κ]

/-- A session with an image loaded on a new machine. -/
def start (log : Log.Settings) (config : Config) (image : Array UInt8) (console : κ) :
    Except Fault (Session κ) := do
  let machine ← (Machine.new config).load image
  return { log, machine, console, journal := log.render [machine.loadEntry image] }

/-- Execute one instruction. -/
def step : Session κ → Session κ
  | ⟨log, machine, console, journal⟩ =>
    let dispatched := if log.shows .debug then machine.dispatchEntries else []
    let wasRunning := machine.status.isRunning
    let (machine, console) := machine.step console
    let stopped := if wasRunning then machine.stopEntries else []
    ⟨log, machine, console, journal ++ log.render (dispatched ++ stopped)⟩

/-- Make at most the given number of steps, and stop when the machine stops. -/
def run : Nat → Session κ → Session κ
  | 0, s => s
  | n + 1, s =>
    let s := s.step
    if s.machine.status.isRunning then run n s else s

end Session

end TapeMachine
