import TapeMachine.Opcode

/-!
# What can be wrong with a program text

A `Problem` is a complaint about one line of source.  An `Assembly.Error` is why no image was made:
a problem with its line, or a label that the builder of the image could not resolve.
-/

namespace TapeMachine

namespace Assembly

/-- What is wrong with a line of source. -/
inductive Problem
  /-- The label is bound a second time. -/
  | duplicateLabel (name : String)
  /-- The label is used and never bound. -/
  | undefinedLabel (name : String)
  | unknownMnemonic (name : String)
  /-- The instruction has no immediate, and there is an operand. -/
  | unwantedOperand (op : Opcode)
  /-- The instruction has an immediate, and there is no operand. -/
  | missingOperand (op : Opcode)
  | unknownDirective (name : String)
  | negativeOrigin
  /-- An item of a list is empty. -/
  | emptyItem
  | notAByte (value : Word)
  | notANumber (text : String)
  | notAWord (text : String)
  | openCharacter
  /-- A character literal that holds `text` instead of one character. -/
  | notOneCharacter (text : String)
  | notAString (text : String)
  | unknownEscape (c : Char)
  | danglingEscape
  /-- Anything else. -/
  | other (text : String)
  deriving DecidableEq, Repr

/-- The wording of a problem. -/
def Problem.message : Problem → String
  | duplicateLabel name => s!"label `{name}` defined more than once"
  | undefinedLabel name => s!"undefined label `{name}`"
  | unknownMnemonic name => s!"unknown mnemonic `{name}`"
  | unwantedOperand op => s!"{op.mnemonic} takes no operand"
  | missingOperand op => s!"{op.mnemonic} needs an operand"
  | unknownDirective name => s!"unknown directive `.{name}`"
  | negativeOrigin => ".org address must not be negative"
  | emptyItem => "expected a comma-separated list of values"
  | notAByte value => s!"{value.toInt} does not fit in a byte"
  | notANumber text => s!"invalid number `{text}`"
  | notAWord text => s!"{text} does not fit in a word"
  | openCharacter => "unterminated character literal"
  | notOneCharacter text => s!"character literal '{text}' must hold exactly one character"
  | notAString text => s!"expected a quoted string, found `{text}`"
  | unknownEscape c => s!"unknown escape `\\{c}`"
  | danglingEscape => "dangling `\\` at end of literal"
  | other text => text

/-- Why no image was made. -/
inductive Error
  /-- A reference names a label that is never bound. -/
  | undefinedLabel (name : String)
  /-- A label is bound more than once. -/
  | duplicateLabel (name : String)
  /-- A label that is referred to has an address beyond the largest word. -/
  | addressRange (address : Nat)
  /-- Something is wrong with a line of source. -/
  | badLine (line : Nat) (problem : Problem)
  deriving DecidableEq, Repr

namespace Error

/-- The wording of an error. -/
def message : Error → String
  | undefinedLabel name => (Problem.undefinedLabel name).message
  | duplicateLabel name => (Problem.duplicateLabel name).message
  | addressRange address => s!"address {address} does not fit in a word"
  | badLine line problem => s!"line {line}: {problem.message}"

/-- The line an error points at. -/
def line? : Error → Option Nat
  | badLine line _ => some line
  | _ => none

end Error

end Assembly

end TapeMachine
