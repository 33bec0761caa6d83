import TapeMachine.Flags

/-!
# The instruction table

An instruction is an opcode byte, followed by the four bytes of an immediate word when the opcode
has one.  `Opcode.all` is the table in its fixed order.  `Opcode.byte` gives the byte of an opcode
and `Opcode.ofByte?` reads it back; `Opcode.mnemonic` and `Opcode.ofMnemonic?` do the same for
names.
-/

namespace TapeMachine

/-- The operations of the machine. -/
inductive Opcode
  | nop
  | push
  | pop
  | const
  | load
  | store
  | arith (op : Operator)
  | call
  | ret
  | dup
  | swap
  | cmp
  | test
  | jump
  | jumpIf (c : Condition)
  | printInt
  | printString
  | readInt
  | readString
  | halt
  deriving DecidableEq, Repr

namespace Opcode

/-- All opcodes, in the order of the instruction table. -/
def all : List Opcode :=
  [.nop, .push, .pop, .const, .load, .store, .arith .add, .arith .sub, .arith .mul, .arith .div,
    .arith .mod, .call, .ret, .dup, .swap, .cmp, .test, .jump, .jumpIf .zero, .jumpIf .notZero,
    .jumpIf .belowZero, .jumpIf .aboveZero, .jumpIf .below, .jumpIf .belowOrEqual, .jumpIf .equal,
    .jumpIf .notEqual, .jumpIf .above, .jumpIf .aboveOrEqual, .printInt, .printString, .readInt,
    .readString, .halt]

/-- The byte of an opcode. -/
def byte : Opcode → UInt8
  | nop => 0x00
  | push => 0x01
  | pop => 0x02
  | const => 0x03
  | load => 0x04
  | store => 0x05
  | arith .add => 0x06
  | arith .sub => 0x07
  | arith .mul => 0x08
  | arith .div => 0x09
  | arith .mod => 0x0a
  | call => 0x0b
  | ret => 0x0c
  | dup => 0x0d
  | swap => 0x0e
  | cmp => 0x0f
  | jump => 0x10
  | jumpIf .zero => 0x11
  | jumpIf .notZero => 0x12
  | jumpIf .belowZero => 0x13
  | jumpIf .aboveZero => 0x14
  | printInt => 0x15
  | printString => 0x16
  | readInt => 0x17
  | readString => 0x18
  | test => 0x19
  | jumpIf .below => 0xf0
  | jumpIf .belowOrEqual => 0xf1
  | jumpIf .equal => 0xf2
  | jumpIf .notEqual => 0xf3
  | jumpIf .above => 0xf4
  | jumpIf .aboveOrEqual => 0xf5
  | halt => 0xff

/-- The name of an opcode in assembly and in error messages. -/
def mnemonic : Opcode → String
  | nop => "NOP"
  | push => "PUSH"
  | pop => "POP"
  | const => "CONST"
  | load => "LOAD"
  | store => "STORE"
  | arith op => op.mnemonic
  | call => "CALL"
  | ret => "RET"
  | dup => "DUP"
  | swap => "SWAP"
  | cmp => "CMP"
  | test => "TEST"
  | jump => "JMP"
  | jumpIf .zero => "JZ"
  | jumpIf .notZero => "JNZ"
  | jumpIf .belowZero => "JBZ"
  | jumpIf .aboveZero => "JAZ"
  | jumpIf .below => "JL"
  | jumpIf .belowOrEqual => "JLE"
  | jumpIf .equal => "JE"
  | jumpIf .notEqual => "JNE"
  | jumpIf .above => "JA"
  | jumpIf .aboveOrEqual => "JAE"
  | printInt => "PRINT_INT"
  | printString => "PRINT_STRING"
  | readInt => "READ_INT"
  | readString => "READ_STRING"
  | halt => "HALT"

/-- Whether an immediate word follows the opcode byte. -/
def hasImmediate : Opcode → Bool
  | push | const | jump | jumpIf _ => true
  | _ => false

/-- Number of bytes after the opcode byte. -/
def operandWidth (op : Opcode) : Nat := if op.hasImmediate then Word.width else 0

/-- Number of bytes of the whole instruction. -/
def size (op : Opcode) : Nat := 1 + op.operandWidth

/-- Number of stack entries the instruction looks at. -/
def operandCount : Opcode → Nat
  | pop | load | call | ret | dup | test | printInt => 1
  | store | arith _ | swap | cmp | printString | readString => 2
  | _ => 0

/-- Whether the instruction divides. -/
def divides : Opcode → Bool
  | arith .div | arith .mod => true
  | _ => false

/-- Whether the instruction puts an entry on the stack and takes none off. -/
def grows : Opcode → Bool
  | push | const | dup | readInt => true
  | _ => false

/-- The opcode of a byte, if it is one. -/
def ofByte? (b : UInt8) : Option Opcode := all.find? fun op => op.byte == b

/-- The opcode of a name, in any mixture of upper and lower case ASCII letters. -/
def ofMnemonic? (name : List Char) : Option Opcode :=
  all.find? fun op => op.mnemonic.toList == name.map Char.toUpper

theorem mem_all (op : Opcode) : op ∈ all := by
  cases op with
  | arith o => cases o <;> decide
  | jumpIf c => cases c <;> decide
  | _ => decide

/-- Every opcode is read back from its byte. -/
@[simp] theorem ofByte?_byte (op : Opcode) : ofByte? op.byte = some op := by
  cases op with
  | arith o => cases o <;> rfl
  | jumpIf c => cases c <;> rfl
  | _ => rfl

/-- Only the byte of an opcode is read as that opcode. -/
theorem byte_of_ofByte? {b : UInt8} {op : Opcode} (h : ofByte? b = some op) : op.byte = b := by
  simpa using List.find?_some h

theorem size_of_hasImmediate {op : Opcode} (h : op.hasImmediate = true) :
    op.size = 1 + Word.width := by
  simp [size, operandWidth, h]

theorem size_of_not_hasImmediate {op : Opcode} (h : op.hasImmediate = false) : op.size = 1 := by
  simp [size, operandWidth, h]

theorem size_pos (op : Opcode) : 0 < op.size := by
  simp only [size]; omega

end Opcode

end TapeMachine
