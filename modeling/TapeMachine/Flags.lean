import TapeMachine.Word

/-!
# Flags and the conditions that read them

The machine has two families of flags.  The relational family records the last comparison of two
words, the sign family the last test of one word.  Each family is written as a whole and the other
one is left alone.
-/

namespace TapeMachine

/-- The two groups of flags that are written together. -/
inductive Family
  | relational
  | signTest
  deriving DecidableEq, Repr

/-- The condition a jump can wait for. -/
inductive Condition
  | zero
  | notZero
  | belowZero
  | aboveZero
  | below
  | belowOrEqual
  | equal
  | notEqual
  | above
  | aboveOrEqual
  deriving DecidableEq, Repr

/-- The eight condition flags. -/
structure Flags where
  /-- The operands of the last comparison were equal. -/
  equal : Bool := false
  /-- The operands of the last comparison differed. -/
  notEqual : Bool := false
  /-- The first operand of the last comparison was the greater one. -/
  above : Bool := false
  /-- The first operand of the last comparison was the smaller one. -/
  below : Bool := false
  /-- The last tested word was zero. -/
  zero : Bool := false
  /-- The last tested word was not zero. -/
  notZero : Bool := false
  /-- The last tested word was positive. -/
  aboveZero : Bool := false
  /-- The last tested word was negative. -/
  belowZero : Bool := false
  deriving DecidableEq, Repr

namespace Flags

/-- No comparison and no test has been made. -/
def clear : Flags := {}

/-- Forget the last comparison or the last test. -/
def reset (f : Flags) : Family → Flags
  | .relational => { f with equal := false, notEqual := false, above := false, below := false }
  | .signTest => { f with zero := false, notZero := false, aboveZero := false, belowZero := false }

/-- Record the comparison of `a` with `b`. -/
def compare (f : Flags) (a b : Word) : Flags :=
  { f with
    equal := decide (a = b), notEqual := decide (a ≠ b),
    above := decide (b < a), below := decide (a < b) }

/-- Record the test of `a`. -/
def test (f : Flags) (a : Word) : Flags :=
  { f with
    zero := decide (a = 0), notZero := decide (a ≠ 0),
    aboveZero := decide (0 < a), belowZero := decide (a < 0) }

/-- Whether a condition holds. -/
def holds (f : Flags) : Condition → Bool
  | .zero => f.zero
  | .notZero => f.notZero
  | .belowZero => f.belowZero
  | .aboveZero => f.aboveZero
  | .below => f.below
  | .belowOrEqual => f.below || f.equal
  | .equal => f.equal
  | .notEqual => f.notEqual
  | .above => f.above
  | .aboveOrEqual => f.above || f.equal

/-- The flags by name, in their fixed order. -/
def fields (f : Flags) : List (String × Bool) :=
  [("equal", f.equal), ("not_equal", f.notEqual), ("above", f.above), ("below", f.below),
    ("zero", f.zero), ("not_zero", f.notZero), ("above_zero", f.aboveZero),
    ("below_zero", f.belowZero)]

end Flags

end TapeMachine
