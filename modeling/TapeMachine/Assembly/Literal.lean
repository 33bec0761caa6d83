import TapeMachine.Assembly.Error
import TapeMachine.Text.Basic

/-!
# Literals

The values a program text can spell out: numbers in decimal or hexadecimal, characters between
single quotes and strings between double quotes.  Inside quotes a backslash starts an escape of two
characters.
-/

namespace TapeMachine

namespace Assembly

/-- The character an escape stands for, by the character after the backslash. -/
def escapeValue (c : Char) : Option Char :=
  if c = 'n' then some '\n'
  else if c = 't' then some '\t'
  else if c = '0' then some '\x00'
  else if c = '\x5c' then some '\x5c'
  else if c = '\x22' then some '\x22'
  else if c = '\x27' then some '\x27'
  else none

/-- Replace the escapes in the inside of a literal. -/
def unescape : List Char → Except Problem (List Char)
  | [] => .ok []
  | '\x5c' :: [] => .error .danglingEscape
  | '\x5c' :: c :: cs =>
    match escapeValue c with
    | none => .error (.unknownEscape c)
    | some v => (unescape cs).map (v :: ·)
  | c :: cs => (unescape cs).map (c :: ·)

/-- Take `c` off the end of a text. -/
def dropLast? (c : Char) (cs : List Char) : Option (List Char) :=
  if cs.getLast? = some c then some cs.dropLast else none

/-- The character of a literal, from what follows the opening quote. -/
def parseCharacter (body : List Char) : Except Problem Char :=
  match dropLast? '\x27' body with
  | none => .error .openCharacter
  | some inner => do
    match ← unescape inner with
    | [c] => return c
    | _ => .error (.notOneCharacter (String.ofList inner))

/-- The text of a string literal. -/
def parseString (cs : List Char) : Except Problem (List Char) :=
  match cs with
  | '\x22' :: body =>
    match dropLast? '\x22' body with
    | some inner => unescape inner
    | none => .error (.notAString (String.ofList cs))
  | _ => .error (.notAString (String.ofList cs))

/-- The magnitude of a number, after its sign: hexadecimal behind `0x` or `0X`, else decimal. -/
def parseMagnitude : List Char → Option Nat
  | '0' :: 'x' :: digits => Text.readNat 16 digits
  | '0' :: 'X' :: digits => Text.readNat 16 digits
  | digits => Text.readNat 10 digits

/-- The word a number denotes.  Numbers that take 32 bits without a sign wrap to negative words,
so that `0xffffffff` is -1. -/
def parseNumeral (cs : List Char) : Except Problem Word :=
  let (sign, digits) : Int × List Char := match cs with
    | '-' :: digits => (-1, digits)
    | digits => (1, digits)
  match (parseMagnitude digits).filter (· < UInt64.size) with
  | none => .error (.notANumber (String.ofList cs))
  | some magnitude =>
    let value := sign * magnitude
    if -2147483648 ≤ value ∧ value ≤ 4294967295 then .ok (Int32.ofInt value)
    else .error (.notAWord (String.ofList cs))

/-- The word a number or a character literal denotes. -/
def parseValue (text : List Char) : Except Problem Word :=
  match Text.trim text with
  | '\x27' :: body => do
    let c ← parseCharacter body
    return Int32.ofNat c.toNat
  | cs => parseNumeral cs

end Assembly

end TapeMachine
