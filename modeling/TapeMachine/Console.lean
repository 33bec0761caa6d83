import TapeMachine.Fault
import TapeMachine.Text.Basic

/-!
# Consoles

An instruction can ask the console for a number or a line of text, or have it print either.  Such a
question is a `Request`, and `Request.Answer` is the type of what a console answers.  A `Console` is
any state that can respond to requests; it may refuse one with a `ConsoleError`, and it may change
its state in either case.
-/

namespace TapeMachine

/-- Why a console refused a request. -/
inductive ConsoleError
  /-- The line `input` is not what was `expected`. -/
  | malformed (input expected : String)
  /-- There is no more input. -/
  | closed
  /-- The streams behind the console failed. -/
  | stream (text : String)
  deriving DecidableEq, Repr

namespace ConsoleError

/-- The wording of a refusal. -/
def message : ConsoleError → String
  | malformed input expected => s!"malformed input {Text.quoted input}: expected {expected}"
  | closed => "input closed"
  | stream text => s!"io: {text}"

/-- The fault a refusal puts the machine in. -/
def toFault : ConsoleError → Fault
  | malformed input expected => .malformedInput (malformed input expected).message
  | e => .consoleFailure e.message

end ConsoleError

/-- What an instruction asks of the console. -/
inductive Request
  /-- Read a line that is a number. -/
  | readNumber
  /-- Read a line. -/
  | readText
  /-- Print a number. -/
  | writeNumber (value : Word)
  /-- Print a text. -/
  | writeText (text : String)
  deriving DecidableEq, Repr

/-- What a console answers to a request. -/
abbrev Request.Answer : Request → Type
  | readNumber => Word
  | readText => String
  | writeNumber _ => Unit
  | writeText _ => Unit

/-- A console with states of type `κ`. -/
class Console (κ : Type) where
  /-- The answer to a request, or the refusal, and the state afterwards. -/
  respond : (r : Request) → κ → Except ConsoleError r.Answer × κ

/-- The number a line holds: a decimal numeral in the range of a word, with an optional sign and
white space around it. -/
def parseNumber (line : String) : Except ConsoleError Word :=
  match Text.readInt (Text.trim line.toList) with
  | some n =>
    if -2147483648 ≤ n ∧ n ≤ 2147483647 then .ok (Int32.ofInt n)
    else .error (.malformed line "a signed 32-bit integer")
  | none => .error (.malformed line "a signed 32-bit integer")

/-- The decimal form of a word. -/
def Word.toDecimal (v : Word) : String := toString v.toInt

end TapeMachine
