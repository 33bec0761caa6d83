import TapeMachine.Assembly.Error
import TapeMachine.Tape
import TapeMachine.Text.Utf8

/-!
# Building an image

A `Builder` is an unfinished image with a cursor, the labels bound so far, and the places that wait
for the address of a label.

* What is emitted (`Builder.bytes` and what is made from it) lands at the cursor and moves it; a gap
  is filled with zeros by the next emission behind it (`place`);
* `Builder.label` binds a name to the cursor, and `Builder.wordLabel` emits a place that waits for
  its address;
* `Builder.finish` fills in the addresses, or says which label stands in the way.
-/

namespace TapeMachine

namespace Assembly

/-- A place of four bytes that waits for the address of a label. -/
structure Reference where
  /-- The address of the first byte. -/
  position : Nat
  /-- The label whose address goes there. -/
  label : String
  deriving DecidableEq, Repr

/-- Write bytes into an image, which grows with zeros as far as needed. -/
def place (image : Array UInt8) (start : Nat) (data : List UInt8) : Array UInt8 :=
  overwrite (image ++ Array.replicate (start + data.length - image.size) 0) start data

@[simp] theorem size_place (image : Array UInt8) (start : Nat) (data : List UInt8) :
    (place image start data).size = max image.size (start + data.length) := by
  simp only [place, size_overwrite, Array.size_append, Array.size_replicate]
  omega

/-- An image in the making. -/
structure Builder where
  /-- The bytes so far. -/
  image : Array UInt8 := #[]
  /-- The address the next byte lands on. -/
  cursor : Nat := 0
  /-- The labels with their addresses, in the order in which they were bound. -/
  labels : List (String × Nat) := []
  /-- The places that wait for an address, oldest first. -/
  references : Array Reference := #[]
  /-- The names that were bound again, oldest first. -/
  duplicates : Array String := #[]
  deriving DecidableEq, Repr

namespace Builder

variable (b : Builder)

/-- A builder of an empty image. -/
def empty : Builder := {}

/-- The address of a label. -/
def addressOf (name : String) : Option Nat := b.labels.lookup name

/-- Emit bytes. -/
def bytes (data : List UInt8) : Builder :=
  { b with image := place b.image b.cursor data, cursor := b.cursor + data.length }

/-- Emit a byte. -/
def byte (value : UInt8) : Builder := b.bytes [value]

/-- Emit a word. -/
def word (value : Word) : Builder := b.bytes value.encode

/-- Emit an opcode byte. -/
def op (opcode : Opcode) : Builder := b.byte opcode.byte

/-- Emit an opcode and its immediate. -/
def opWord (opcode : Opcode) (operand : Word) : Builder := (b.op opcode).word operand

/-- Emit the UTF-8 bytes of a text. -/
def string (text : String) : Builder := b.bytes (Utf8.encode text.toList)

/-- Write the UTF-8 bytes of a text somewhere else and leave the cursor alone. -/
def placeString (start : Nat) (text : String) : Builder :=
  { b with image := place b.image start (Utf8.encode text.toList) }

/-- Move the cursor. -/
def seek (address : Nat) : Builder := { b with cursor := address }

/-- Bind a label to the cursor.  A label that is already bound keeps its address. -/
def label (name : String) : Builder :=
  if (b.addressOf name).isSome then { b with duplicates := b.duplicates.push name }
  else { b with labels := b.labels ++ [(name, b.cursor)] }

/-- Emit a word that becomes the address of a label. -/
def wordLabel (name : String) : Builder :=
  { b with references := b.references.push ⟨b.cursor, name⟩ }.word 0

/-- Emit an opcode whose immediate becomes the address of a label. -/
def opLabel (opcode : Opcode) (name : String) : Builder := (b.op opcode).wordLabel name

/-- Fill in the address of a label. -/
def resolve (image : Array UInt8) (r : Reference) : Except Error (Array UInt8) :=
  match b.addressOf r.label with
  | none => .error (.undefinedLabel r.label)
  | some address =>
    match Word.ofNat? address with
    | none => .error (.addressRange address)
    | some v => .ok (place image r.position v.encode)

/-- The finished image. -/
def finish : Except Error (Array UInt8) :=
  match b.duplicates[0]? with
  | some name => .error (.duplicateLabel name)
  | none => b.references.toList.foldlM b.resolve b.image

end Builder

end Assembly

end TapeMachine
