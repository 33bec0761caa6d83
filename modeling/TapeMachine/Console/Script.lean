import TapeMachine.Console

/-!
# A console that follows a script

The input is a list of lines given beforehand, and the output is recorded as a list of events.
-/

namespace TapeMachine

/-- Something that was printed. -/
inductive Event
  | text (s : String)
  | number (v : Word)
  deriving DecidableEq, Repr

/-- What an event looks like: texts as they are, numbers in decimal. -/
def Event.render : Event → String
  | text s => s
  | number v => v.toDecimal

/-- A console whose input is fixed and whose output is recorded. -/
structure Script where
  /-- The lines that have not been read. -/
  unread : List String
  /-- What has been printed, oldest first. -/
  events : Array Event := #[]
  deriving DecidableEq, Repr

namespace Script

/-- A script with the given input and no output. -/
def ofLines (lines : List String) : Script := { unread := lines }

/-- All output in one text, with nothing between the events. -/
def output (s : Script) : String := String.join (s.events.toList.map Event.render)

/-- Record an event. -/
def record (s : Script) (e : Event) : Script := { s with events := s.events.push e }

/-- Respond to a request.  A line that is asked for as a number is used up even if it is none. -/
def answer : (r : Request) → Script → Except ConsoleError r.Answer × Script
  | .readNumber, s =>
    match s.unread with
    | [] => (.error .closed, s)
    | line :: rest => (parseNumber line, { s with unread := rest })
  | .readText, s =>
    match s.unread with
    | [] => (.error .closed, s)
    | line :: rest => (.ok line, { s with unread := rest })
  | .writeNumber v, s => (.ok (), s.record (.number v))
  | .writeText t, s => (.ok (), s.record (.text t))

instance : Console Script where
  respond := answer

end Script

end TapeMachine
