import TapeMachine.Text.Basic

/-!
# Leveled log lines

A log entry has a level and a message.  Entries below a threshold are not shown.  On an output with
colors the tag that names the level is colored.
-/

namespace TapeMachine

namespace Log

/-- How important an entry is. -/
inductive Level
  | debug
  | info
  | warn
  | error
  deriving DecidableEq, Repr

namespace Level

/-- All levels, from the least to the most important. -/
def all : List Level := [.debug, .info, .warn, .error]

/-- The position of a level in their order. -/
def rank : Level → Nat
  | debug => 0
  | info => 1
  | warn => 2
  | error => 3

/-- The name of a level in a tag. -/
def name : Level → String
  | debug => "DEBUG"
  | info => "INFO"
  | warn => "WARN"
  | error => "ERROR"

/-- The level a text names, with white space around it and in any case.  What names no level is
given back trimmed and in lower case. -/
def parse (text : String) : Except String Level :=
  let name := String.ofList ((Text.trim text.toList).map Char.toLower)
  if name = "debug" ∨ name = "trace" then .ok debug
  else if name = "info" then .ok info
  else if name = "warn" ∨ name = "warning" then .ok warn
  else if name = "error" then .ok error
  else .error name

/-- The complaint about a text that names no level. -/
def unknownMessage (name : String) : String := s!"unknown log level '{name}'"

/-- The terminal attributes of a tag, if it is colored. -/
def style? : Level → Option String
  | debug => some "2"
  | info => none
  | warn => some "1;33"
  | error => some "1;31"

end Level

/-- The threshold when none is asked for. -/
def defaultThreshold : Level := .warn

/-- Whether an entry of `level` is shown at `threshold`. -/
def enabled (threshold level : Level) : Bool := threshold.rank ≤ level.rank

/-- A log entry. -/
structure Entry where
  level : Level
  message : String
  deriving DecidableEq, Repr

/-- A text with terminal attributes switched on before it and off behind it. -/
def styled (style text : String) : String := s!"\x1b[{style}m{text}\x1b[0m"

/-- The line of an entry. -/
def Entry.render (colored : Bool) (e : Entry) : String :=
  let tag := s!"[{e.level.name}]"
  let tag := match colored, e.level.style? with
    | true, some style => styled style tag
    | _, _ => tag
  s!"{tag} {e.message}\n"

/-- How entries are shown. -/
structure Settings where
  /-- The least important level that is shown. -/
  threshold : Level := defaultThreshold
  /-- Whether tags are colored. -/
  colored : Bool := false
  deriving DecidableEq, Repr

namespace Settings

/-- Whether entries of a level are shown. -/
def shows (s : Settings) (level : Level) : Bool := enabled s.threshold level

/-- The lines of the entries that are shown. -/
def render (s : Settings) (entries : List Entry) : String :=
  String.join ((entries.filter fun e => s.shows e.level).map (Entry.render s.colored))

end Settings

end Log

end TapeMachine
