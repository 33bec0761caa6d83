import TapeMachine.Console
import TapeMachine.Text.Utf8

/-!
# A console over byte streams

Input and output are UTF-8 bytes.  A read takes the bytes up to and including the next newline; the
line is what stands before it, without a carriage return at its end.  A number is printed with a
newline behind it, a text as it is.  The output may have a limit, beyond which writing fails.
-/

namespace TapeMachine

/-- A console that reads and writes bytes. -/
structure Streams where
  /-- The bytes that have not been read. -/
  input : List UInt8
  /-- The bytes that have been written. -/
  output : Array UInt8 := #[]
  /-- How many more bytes can be written, if there is a limit. -/
  room : Option Nat := none
  deriving DecidableEq, Repr

namespace Streams

/-- The newline byte. -/
def newline : UInt8 := 10

/-- The carriage return byte. -/
def carriageReturn : UInt8 := 13

/-- A console over an input, with no limit on the output. -/
def ofBytes (input : List UInt8) : Streams := { input }

/-- Drop a carriage return from the end of a line. -/
def dropReturn (line : List UInt8) : List UInt8 :=
  if line.getLast? = some carriageReturn then line.dropLast else line

/-- The bytes of the next line and those behind it, if there is any input left. -/
def splitLine (input : List UInt8) : Option (List UInt8 × List UInt8) :=
  if input.isEmpty then none
  else
    let (line, rest) := input.span (· ≠ newline)
    match rest with
    | [] => some (line, [])
    | _ :: rest => some (dropReturn line, rest)

/-- Read a line.  A line that is not UTF-8 is used up. -/
def readLine (s : Streams) : Except ConsoleError String × Streams :=
  match splitLine s.input with
  | none => (.error .closed, s)
  | some (line, rest) =>
    let s := { s with input := rest }
    match Utf8.decode? line with
    | some cs => (.ok (String.ofList cs), s)
    | none => (.error (.stream "stream did not contain valid UTF-8"), s)

/-- Write bytes.  What does not fit is lost and the write fails. -/
def write (s : Streams) (bytes : List UInt8) : Except ConsoleError Unit × Streams :=
  match s.room with
  | none => (.ok (), { s with output := s.output ++ bytes })
  | some n =>
    let result :=
      if bytes.length ≤ n then .ok () else .error (.stream "failed to write whole buffer")
    (result, { s with output := s.output ++ bytes.take n, room := some (n - bytes.length) })

/-- Respond to a request. -/
def answer : (r : Request) → Streams → Except ConsoleError r.Answer × Streams
  | .readNumber, s =>
    match s.readLine with
    | (.ok line, s) => (parseNumber line, s)
    | (.error e, s) => (.error e, s)
  | .readText, s => s.readLine
  | .writeNumber v, s => s.write (Utf8.encode (v.toDecimal.toList ++ ['\n']))
  | .writeText t, s => s.write (Utf8.encode t.toList)

instance : Console Streams where
  respond := answer

end Streams

end TapeMachine
