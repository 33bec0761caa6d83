import TapeMachine.Opcode
import TapeMachine.Text.Basic

/-!
# Listings

A listing shows the bytes of an image as instructions, one a line.  `disassemble` lists a range of
an image: it reads instruction after instruction, and the first byte that does not start a complete
one ends the listing as a plain byte.
-/

namespace TapeMachine

/-- A line of a listing. -/
structure Listing where
  /-- The address of the first byte. -/
  address : Nat
  /-- The first byte. -/
  byte : UInt8
  /-- The opcode, if an instruction is shown. -/
  opcode : Option Opcode
  /-- The immediate of the instruction. -/
  operand : Option Word
  deriving DecidableEq, Repr

namespace Listing

/-- Number of bytes the line shows. -/
def size (l : Listing) : Nat := l.opcode.elim 1 Opcode.size

/-- What the line shows, as it would be written in a program text. -/
def statement (l : Listing) : String :=
  match l.opcode, l.operand with
  | some op, some v => s!"{op.mnemonic} {v.toInt}"
  | some op, none => op.mnemonic
  | none, _ => s!".byte 0x{Text.hexByte l.byte}"

/-- The whole line: the address in a column of six characters, then the statement. -/
def text (l : Listing) : String :=
  Text.padLeft 6 ' ' (toString l.address) ++ "  " ++ l.statement

end Listing

/-- The instruction that starts at `address` and ends at `stop` or before. -/
def instructionAt? (image : Array UInt8) (address stop : Nat) : Option (Opcode × Option Word) :=
  match image[address]?.bind Opcode.ofByte? with
  | none => none
  | some op =>
    if address + op.size ≤ stop then
      some (op,
        if op.hasImmediate then
          Word.decode (image.extract (address + 1) (address + 1 + Word.width)).toList
        else none)
    else none

/-- List the bytes from `address` up to `stop`, which lies in the image. -/
def listFrom (image : Array UInt8) (stop address : Nat) : List Listing :=
  if h : address < stop then
    let byte := image.getD address 0
    match instructionAt? image address stop with
    | some (op, operand) =>
      have : stop - (address + op.size) < stop - address := by
        have := op.size_pos
        omega
      ⟨address, byte, some op, operand⟩ :: listFrom image stop (address + op.size)
    | none => [⟨address, byte, none, none⟩]
  else []
  termination_by stop - address

/-- List the bytes of an image from `start` up to `stop` or its end. -/
def disassemble (image : Array UInt8) (start stop : Nat) : List Listing :=
  listFrom image (min stop image.size) start

end TapeMachine
