import TapeMachine.Assembly.Builder
import TapeMachine.Assembly.Line
import TapeMachine.Text.Basic

/-!
# Assembling

`assemble` turns a program text into an image.  Lines are taken in order (`Draft.lines`): each binds
its labels and emits its statement.  The first line with a problem decides the error; when there is
none, the first use of a label that was never bound does (`Draft.undefined?`).
-/

namespace TapeMachine

namespace Assembly

/-- A program in the middle of being assembled. -/
structure Draft where
  /-- The image so far. -/
  builder : Builder := {}
  /-- The labels used so far and the lines that use them, oldest first. -/
  uses : Array (String × Nat) := #[]

/-- The labels an operand uses. -/
def Operand.labels : Operand → List String
  | label name => [name]
  | value _ => []

/-- The labels a statement uses, in order. -/
def Statement.labels : Statement → List String
  | immediate _ x => x.labels
  | words xs => xs.flatMap Operand.labels
  | _ => []

/-- Emit the word of an operand. -/
def Operand.emit (b : Builder) : Operand → Builder
  | label name => b.wordLabel name
  | value v => b.word v

/-- Emit a statement. -/
def Statement.emit (b : Builder) : Statement → Builder
  | plain op => b.op op
  | immediate op x => x.emit (b.op op)
  | origin address => b.seek address
  | words xs => xs.foldl Operand.emit b
  | bytes data => data.foldl Builder.byte b
  | string text => b.string text

/-- Bind the labels in front of a statement, none of which may be bound already. -/
def bindLabels (b : Builder) : List String → Except Problem Builder
  | [] => .ok b
  | name :: names =>
    if (b.addressOf name).isSome then .error (.duplicateLabel name)
    else bindLabels (b.label name) names

/-- Take in a line, whose number is `n`. -/
def Draft.line (d : Draft) (n : Nat) (line : Line) : Except Problem Draft := do
  let builder ← bindLabels d.builder line.labels
  match ← line.body with
  | none => return { d with builder }
  | some s =>
    return { builder := s.emit builder, uses := d.uses ++ s.labels.map fun name => (name, n) }

/-- Take in lines, the first of which has number `n`. -/
def Draft.lines (d : Draft) (n : Nat) : List (List Char) → Except Error Draft
  | [] => .ok d
  | cs :: rest =>
    match d.line n (Line.parse cs) with
    | .ok d => d.lines (n + 1) rest
    | .error problem => .error (.badLine n problem)

/-- The first use of a label that was never bound. -/
def Draft.undefined? (d : Draft) : Option (String × Nat) :=
  d.uses.find? fun use => (d.builder.addressOf use.1).isNone

/-- The image of a program that has been taken in. -/
def Draft.finish (d : Draft) : Except Error (Array UInt8) :=
  match d.undefined? with
  | some (name, line) => .error (.badLine line (.undefinedLabel name))
  | none => d.builder.finish

/-- The image of a program given by its lines. -/
def assembleLines (lines : List (List Char)) : Except Error (Array UInt8) := do
  let d ← Draft.lines {} 1 lines
  d.finish

end Assembly

/-- The image of a program text. -/
def assemble (source : String) : Except Assembly.Error (Array UInt8) :=
  Assembly.assembleLines (Text.lines source.toList)

end TapeMachine
