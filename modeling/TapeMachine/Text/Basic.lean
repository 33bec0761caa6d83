import TapeMachine.Text.Hidden

/-!
# Texts

Texts are lists of characters wherever they are taken apart, and strings where they are shown.

* `isBlank` is the Unicode property White_Space, and `trim` takes it off both ends of a text;
* `lines` takes a text apart at its newlines;
* `readNat`, `readInt` and `readCount` read numerals.  The value of a numeral is a number of any
  size, so each caller states its own range;
* `padLeft`, `padRight` and `hexByte` fit what is shown into columns;
* `quoted` puts a text between quotes, for messages that show what was read.
-/

namespace TapeMachine

namespace Text

/-! ### White space -/

/-- The ranges of white space characters, by code point. -/
def blankRanges : List (Nat × Nat) :=
  [(0x09, 0x0d), (0x20, 0x20), (0x85, 0x85), (0xa0, 0xa0), (0x1680, 0x1680), (0x2000, 0x200a),
    (0x2028, 0x2029), (0x202f, 0x202f), (0x205f, 0x205f), (0x3000, 0x3000)]

/-- Whether a code point lies in one of the ranges. -/
def inRanges (ranges : List (Nat × Nat)) (n : Nat) : Bool :=
  ranges.any fun r => r.1 ≤ n && n ≤ r.2

/-- Whether a character is white space. -/
def isBlank (c : Char) : Bool := inRanges blankRanges c.toNat

/-- Drop white space in front. -/
def trimStart (cs : List Char) : List Char := cs.dropWhile isBlank

/-- Drop white space at the end. -/
def trimEnd (cs : List Char) : List Char := (cs.reverse.dropWhile isBlank).reverse

/-- Drop white space at both ends. -/
def trim (cs : List Char) : List Char := trimEnd (trimStart cs)

/-! ### Lines

A line ends at a newline; a carriage return directly before that newline belongs to the line end.
What follows the last newline is a line of its own unless it is empty, and it keeps a trailing
carriage return.
-/

/-- Drop a carriage return from the front of a line that is written backwards. -/
def dropReturn : List Char → List Char
  | '\r' :: cs => cs
  | cs => cs

/-- The lines of a text, given the characters already read of the first line, backwards. -/
def linesFrom : List Char → List Char → List (List Char)
  | [], [] => []
  | current, [] => [current.reverse]
  | current, c :: cs =>
    if c = '\n' then (dropReturn current).reverse :: linesFrom [] cs
    else linesFrom (c :: current) cs

/-- The lines of a text, without their line ends. -/
def lines (cs : List Char) : List (List Char) := linesFrom [] cs

/-! ### Numerals

A numeral is one or more digits of a base up to sixteen and nothing else.
-/

/-- The value of a digit, for any base up to sixteen. -/
def digitValue (c : Char) : Option Nat :=
  if '0' ≤ c ∧ c ≤ '9' then some (c.toNat - '0'.toNat)
  else if 'a' ≤ c ∧ c ≤ 'f' then some (c.toNat - 'a'.toNat + 10)
  else if 'A' ≤ c ∧ c ≤ 'F' then some (c.toNat - 'A'.toNat + 10)
  else none

/-- The value of a digit of the given base. -/
def digitOf (base : Nat) (c : Char) : Option Nat := (digitValue c).filter (· < base)

/-- Read digits behind a numeral whose value is `high`. -/
def readDigits (base : Nat) (high : Nat) : List Char → Option Nat
  | [] => some high
  | c :: cs =>
    match digitOf base c with
    | some d => readDigits base (high * base + d) cs
    | none => none

/-- The value of a numeral: one or more digits. -/
def readNat (base : Nat) (cs : List Char) : Option Nat :=
  if cs.isEmpty then none else readDigits base 0 cs

/-- The value of a decimal numeral with at most one sign, `+` or `-`, in front. -/
def readInt (cs : List Char) : Option Int :=
  match cs with
  | '-' :: digits => (readNat 10 digits).map fun n => -(n : Int)
  | '+' :: digits => (readNat 10 digits).map fun n => (n : Int)
  | digits => (readNat 10 digits).map fun n => (n : Int)

/-- The value of a decimal numeral below `2 ^ 64`, with or without a `+` in front. -/
def readCount (cs : List Char) : Option Nat :=
  let digits := match cs with
    | '+' :: digits => digits
    | digits => digits
  (readNat 10 digits).filter (· < UInt64.size)

/-! ### Columns -/

/-- Fill a text with blanks on its right up to `width` characters. -/
def padRight (width : Nat) (s : String) : String :=
  s ++ String.ofList (List.replicate (width - s.length) ' ')

/-- Fill a text on its left up to `width` characters. -/
def padLeft (width : Nat) (fill : Char) (s : String) : String :=
  String.ofList (List.replicate (width - s.length) fill) ++ s

/-- The two lower case hexadecimal digits of a byte. -/
def hexByte (b : UInt8) : String :=
  String.ofList [Nat.digitChar (b.toNat / 16), Nat.digitChar (b.toNat % 16)]

/-! ### Quoted text

Backslash and double quote are escaped, the common control characters have letters, and every other
character that is not shown as itself is written as its code point in hexadecimal.
-/

/-- The letter that stands for a character after a backslash, if it has one. -/
def escapeLetter (c : Char) : Option Char :=
  if c = '\x00' then some '0'
  else if c = '\t' then some 't'
  else if c = '\n' then some 'n'
  else if c = '\r' then some 'r'
  else if c = '\x22' then some '\x22'
  else if c = '\x5c' then some '\x5c'
  else none

/-- How a character is written between quotes. -/
def escaped (c : Char) : List Char :=
  match escapeLetter c with
  | some letter => ['\x5c', letter]
  | none =>
    if isHidden c then ['\x5c', 'u', '\x7b'] ++ Nat.toDigits 16 c.toNat ++ ['\x7d'] else [c]

/-- A text between double quotes. -/
def quoted (s : String) : String :=
  String.ofList ('\x22' :: s.toList.flatMap escaped ++ ['\x22'])

end Text

end TapeMachine
