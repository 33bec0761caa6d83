import TapeMachine.Assembly.Builder
import TapeMachine.Machine.Step

/-!
# A countdown

A program that greets, prints the numbers from `n` down to 1, and says goodbye.
-/

namespace TapeMachine

namespace Demo

/-- What the program prints first. -/
def greeting : String := "Hello from tapevm!\n"

/-- What the program prints last. -/
def farewell : String := "Liftoff!\n"

/-- The address of the farewell, away from the code. -/
def farewellAddress : Nat := 1024

/-- Number of bytes of a text, as a word. -/
def byteCount (text : String) : Word := Int32.ofNat (Utf8.encode text.toList).length

/-- The steps that build the program. -/
def countdown (n : Word) : Assembly.Builder :=
  Assembly.Builder.empty
    |>.opLabel .push "greeting"
    |>.opWord .push (byteCount greeting)
    |>.op .printString
    |>.opWord .const n
    |>.label "loop"
    |>.op .dup
    |>.op .test
    |>.opLabel (.jumpIf .zero) "done"
    |>.op .dup
    |>.op .printInt
    |>.opWord .push 1
    |>.op (.arith .sub)
    |>.opLabel .jump "loop"
    |>.label "done"
    |>.op .pop
    |>.opWord .push (Int32.ofNat farewellAddress)
    |>.opWord .push (byteCount farewell)
    |>.op .printString
    |>.op .halt
    |>.label "greeting"
    |>.string greeting
    |>.placeString farewellAddress farewell

/-- The image of the program. -/
def countdownImage (n : Word) : Except Assembly.Error (Array UInt8) := (countdown n).finish

variable {κ : Type} [Console κ]

/-- Run an image on a machine of the default size for at most `fuel` steps, and give its last status
and its console. -/
def runWithFuel (image : Array UInt8) (fuel : Nat) (console : κ) : Except Fault (Status × κ) := do
  let m ← Machine.withProgram image
  let (_, m, console) := m.runFuel fuel console
  return (m.status, console)

end Demo

end TapeMachine
