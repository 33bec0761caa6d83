import TapeMachine.Fault

/-!
# The tape

A `Tape` is a fixed number of bytes, addressed from 0.  Every access states its address and its
width; it succeeds exactly when all the bytes it touches lie on the tape, and otherwise nothing
changes and the fault is `Fault.bounds`.

* `Tape.check` makes that test for an address, `Tape.address` for an address given as a word.  The
  end of the range is computed with 64 bits, so that it may fail to be a number (`Tape.stop?`);
* `Tape.readByte`, `Tape.readWord` and `Tape.readSlice` read, their counterparts write;
* `Tape.cell`, `Tape.word`, `Tape.slice` and `Tape.put` do without a test, for a caller that has
  made it;
* `overwrite` is the writing itself, described byte by byte in `getElem?_overwrite`.
-/

namespace TapeMachine

/-- Write `data` over the bytes from `start` on.  Bytes that would fall outside are dropped. -/
def overwrite (cells : Array UInt8) (start : Nat) : List UInt8 → Array UInt8
  | [] => cells
  | b :: data => overwrite (cells.setIfInBounds start b) (start + 1) data

@[simp] theorem size_overwrite (cells : Array UInt8) (start : Nat) (data : List UInt8) :
    (overwrite cells start data).size = cells.size := by
  induction data generalizing cells start with
  | nil => rfl
  | cons b data ih => simp [overwrite, ih]

/-- What stands at a position after a write: the new byte where the data reaches, else the old. -/
theorem getElem?_overwrite (cells : Array UInt8) (start : Nat) (data : List UInt8) (i : Nat) :
    (overwrite cells start data)[i]? =
      if start ≤ i ∧ i < start + data.length ∧ i < cells.size then data[i - start]?
      else cells[i]? := by
  induction data generalizing cells start with
  | nil =>
    rw [if_neg (by simp only [List.length_nil]; omega)]
    rfl
  | cons b data ih =>
    rw [overwrite, ih, Array.size_setIfInBounds, Array.getElem?_setIfInBounds]
    by_cases hi : i = start
    · subst hi
      rw [if_neg (by omega)]
      by_cases hs : i < cells.size
      · simp [hs]
      · simp [hs]
    · by_cases hin : start + 1 ≤ i ∧ i < start + 1 + data.length ∧ i < cells.size
      · rw [if_pos hin, if_pos (by simp only [List.length_cons]; omega),
          show i - start = (i - (start + 1)) + 1 by omega, List.getElem?_cons_succ]
      · rw [if_neg hin, if_neg (Ne.symm hi), if_neg (by simp only [List.length_cons]; omega)]

/-- The byte store of the machine. -/
structure Tape where
  /-- The bytes, by address. -/
  cells : Array UInt8
  deriving DecidableEq, Repr

namespace Tape

/-- The capacity of a tape when none is asked for. -/
def defaultCapacity : Nat := 16384

/-- A tape of zero bytes. -/
def blank (capacity : Nat) : Tape := ⟨Array.replicate capacity 0⟩

/-- Number of bytes on the tape. -/
def capacity (t : Tape) : Nat := t.cells.size

/-- The fault of an access that leaves the tape. -/
def outside (t : Tape) (address : Int) (width : Nat) : Fault :=
  .bounds address width t.capacity

/-- An address as it is reported: a signed number of 64 bits. -/
def reported (address : Nat) : Int := Int.bmod address UInt64.size

/-- The greatest number that can be an address.  Addresses have 64 bits, and more only on a tape
that is too long for these. -/
def maxAddress (t : Tape) : Nat := max (UInt64.size - 1) t.capacity

/-- The address behind `width` bytes from `start` on, unless it is too large to be one. -/
def stop? (t : Tape) (start width : Nat) : Option Nat :=
  if start + width ≤ t.maxAddress then some (start + width) else none

/-- Check that `width` bytes from `start` on lie on the tape, and give the range they occupy.  A
range whose end is no address is refused like one that ends behind the tape. -/
def check (t : Tape) (start width : Nat) : Except Fault (Nat × Nat) :=
  match t.stop? start width with
  | none => .error (t.outside (reported start) width)
  | some stop =>
    if stop ≤ t.capacity then .ok (start, stop) else .error (t.outside (reported start) width)

/-- The address a word denotes, if `width` bytes from there on lie on the tape. -/
def address (t : Tape) (value : Word) (width : Nat) : Except Fault Nat :=
  if value < 0 then .error (t.outside value.toInt width)
  else do
    let (start, _) ← t.check value.toInt.toNat width
    return start

/-- Put `image` at the front of the tape and zeros behind it. -/
def load (t : Tape) (image : Array UInt8) : Except Fault Tape :=
  if image.size ≤ t.capacity then
    .ok ⟨image ++ Array.replicate (t.capacity - image.size) 0⟩
  else .error (.imageTooLong image.size t.capacity)

/-- The byte at a position, zero outside the tape. -/
def cell (t : Tape) (position : Nat) : UInt8 := t.cells.getD position 0

/-- The word whose first byte is at a position. -/
def word (t : Tape) (position : Nat) : Word :=
  Word.ofBytes (t.cell position) (t.cell (position + 1)) (t.cell (position + 2))
    (t.cell (position + 3))

/-- The bytes from a position on, up to the end of the tape. -/
def slice (t : Tape) (position length : Nat) : List UInt8 :=
  (t.cells.extract position (position + length)).toList

/-- Write bytes without a check.  What would fall outside the tape is dropped. -/
def put (t : Tape) (start : Nat) (data : List UInt8) : Tape :=
  ⟨overwrite t.cells start data⟩

/-- The byte at an address. -/
def readByte (t : Tape) (start : Nat) : Except Fault UInt8 := do
  let _ ← t.check start 1
  return t.cell start

/-- The word whose first byte is at an address. -/
def readWord (t : Tape) (start : Nat) : Except Fault Word := do
  let _ ← t.check start Word.width
  return t.word start

/-- The bytes of a region. -/
def readSlice (t : Tape) (start length : Nat) : Except Fault (List UInt8) := do
  let _ ← t.check start length
  return t.slice start length

/-- Write bytes from an address on. -/
def writeSlice (t : Tape) (start : Nat) (data : List UInt8) : Except Fault Tape := do
  let _ ← t.check start data.length
  return t.put start data

/-- Write one byte. -/
def writeByte (t : Tape) (start : Nat) (value : UInt8) : Except Fault Tape :=
  t.writeSlice start [value]

/-- Write the four bytes of a word. -/
def writeWord (t : Tape) (start : Nat) (value : Word) : Except Fault Tape :=
  t.writeSlice start value.encode

@[simp] theorem capacity_blank (n : Nat) : (blank n).capacity = n := by
  simp [blank, capacity]

@[simp] theorem capacity_put (t : Tape) (start : Nat) (data : List UInt8) :
    (t.put start data).capacity = t.capacity := by
  simp [put, capacity]

end Tape

end TapeMachine
