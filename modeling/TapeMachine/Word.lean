/-!
# Machine words

A `Word` is a signed integer of 32 bits whose arithmetic wraps.  In memory it takes four bytes,
least significant first.

* `Word.encode` lists the bytes of a word and `Word.decode` reads them back, whatever follows the
  fourth byte (`Word.decode_encode`, `Word.encode_ofBytes`);
* `Operator` collects the arithmetic of the machine, and `Operator.eval?` computes it.
-/

namespace TapeMachine

/-- A machine word: a signed integer of 32 bits with wrapping arithmetic. -/
abbrev Word := Int32

namespace Word

/-- Number of bytes a word takes. -/
def width : Nat := 4

/-- The largest word, as a natural number. -/
def maxValue : Nat := 2147483647

/-- The word whose bytes are `b₀` (least significant) to `b₃`. -/
def ofBytes (b₀ b₁ b₂ b₃ : UInt8) : Word :=
  Int32.ofNat (b₀.toNat + 256 * b₁.toNat + 65536 * b₂.toNat + 16777216 * b₃.toNat)

/-- The four bytes of a word, least significant first. -/
def encode (v : Word) : List UInt8 :=
  let n := v.toUInt32.toNat
  [UInt8.ofNat n, UInt8.ofNat (n / 256), UInt8.ofNat (n / 65536), UInt8.ofNat (n / 16777216)]

/-- The word at the front of a byte string, if there are four bytes. -/
def decode : List UInt8 → Option Word
  | b₀ :: b₁ :: b₂ :: b₃ :: _ => some (ofBytes b₀ b₁ b₂ b₃)
  | _ => none

/-- Write a word over the first four bytes of a buffer.  A shorter buffer is left alone, and the
flag says whether the word was written. -/
def encodeInto (v : Word) (buffer : List UInt8) : Bool × List UInt8 :=
  if buffer.length < width then (false, buffer) else (true, encode v ++ buffer.drop width)

/-- The word of a natural number that fits, such as an address. -/
def ofNat? (n : Nat) : Option Word :=
  if n ≤ maxValue then some (Int32.ofNat n) else none

@[simp] theorem length_encode (v : Word) : v.encode.length = width := rfl

theorem ofNat_toNat (v : Word) : Int32.ofNat v.toUInt32.toNat = v := by
  obtain ⟨u⟩ := v
  exact congrArg Int32.ofUInt32 (UInt32.ofNat_toNat (x := u))

/-- A word is read back from its bytes. -/
theorem decode_encode (v : Word) (rest : List UInt8) : decode (encode v ++ rest) = some v := by
  have h := v.toUInt32.toNat_lt
  simp only [encode, List.cons_append, List.nil_append, decode, ofBytes, UInt8.toNat_ofNat',
    Option.some.injEq]
  refine Eq.trans (congrArg Int32.ofNat ?_) (ofNat_toNat v)
  omega

theorem toNat_ofBytes (b₀ b₁ b₂ b₃ : UInt8) :
    (ofBytes b₀ b₁ b₂ b₃).toUInt32.toNat =
      b₀.toNat + 256 * b₁.toNat + 65536 * b₂.toNat + 16777216 * b₃.toNat := by
  have h₀ := b₀.toNat_lt
  have h₁ := b₁.toNat_lt
  have h₂ := b₂.toNat_lt
  have h₃ := b₃.toNat_lt
  change (BitVec.ofNat 32 _).toNat = _
  rw [BitVec.toNat_ofNat]
  omega

/-- Four bytes are written back from their word. -/
theorem encode_ofBytes (b₀ b₁ b₂ b₃ : UInt8) :
    encode (ofBytes b₀ b₁ b₂ b₃) = [b₀, b₁, b₂, b₃] := by
  have h₀ := b₀.toNat_lt
  have h₁ := b₁.toNat_lt
  have h₂ := b₂.toNat_lt
  have h₃ := b₃.toNat_lt
  simp only [encode, toNat_ofBytes, List.cons.injEq, and_true, ← UInt8.toNat_inj,
    UInt8.toNat_ofNat']
  omega

end Word

/-- The arithmetic operators of the machine. -/
inductive Operator
  | add
  | sub
  | mul
  | div
  | mod
  deriving DecidableEq, Repr

namespace Operator

/-- All operators, in the order of the instruction table. -/
def all : List Operator := [.add, .sub, .mul, .div, .mod]

/-- The name of an operator in assembly. -/
def mnemonic : Operator → String
  | add => "ADD"
  | sub => "SUB"
  | mul => "MUL"
  | div => "DIV"
  | mod => "MOD"

/-- The result of `a op b`.  The quotient is truncated toward zero and the remainder has the sign
of `a`; both are missing when `b` is zero. -/
def eval? (op : Operator) (a b : Word) : Option Word :=
  match op with
  | add => some (a + b)
  | sub => some (a - b)
  | mul => some (a * b)
  | div => if b = 0 then none else some (a / b)
  | mod => if b = 0 then none else some (a % b)

end Operator

end TapeMachine
