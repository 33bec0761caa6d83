/-!
# UTF-8

`encode` is the UTF-8 form of a text.  `next` reads one character off a byte string, or says how
many bytes form the longest start of a character that then breaks off.  Two readers share it:
`decode?` refuses text with such a break, and `decodeLossy` puts one replacement character for each.
-/

namespace TapeMachine

namespace Utf8

/-- The UTF-8 bytes of a text. -/
def encode (cs : List Char) : List UInt8 := cs.flatMap String.utf8EncodeChar

/-- The character that stands for bytes that are no character. -/
def replacement : Char := '�'

/-- The range of the second byte of a character, by its first byte.  Nothing for a first byte
that needs no second one or that cannot start a character. -/
def secondRange (lead : Nat) : Option (Nat × Nat) :=
  if lead < 0xc2 then none
  else if lead = 0xe0 then some (0xa0, 0xbf)
  else if lead = 0xed then some (0x80, 0x9f)
  else if lead = 0xf0 then some (0x90, 0xbf)
  else if lead = 0xf4 then some (0x80, 0x8f)
  else if lead < 0xf4 then some (0x80, 0xbf)
  else none

/-- Whether a byte can continue a character beyond its second byte. -/
def isTail (b : Nat) : Bool := 0x80 ≤ b && b ≤ 0xbf

/-- What stands at the front of a byte string. -/
structure Front where
  /-- The character, or nothing when the bytes start no character or break off. -/
  char? : Option Char
  /-- The bytes after it. -/
  rest : List UInt8

/-- Read what stands at the front: `lead` is the first byte and `rest` what follows. -/
def next (lead : UInt8) (rest : List UInt8) : Front :=
  let a := lead.toNat
  if a < 0x80 then ⟨some (Char.ofNat a), rest⟩
  else
    match secondRange a, rest with
    | some (low, high), b :: rest₁ =>
      let b := b.toNat
      if b < low ∨ high < b then ⟨none, rest⟩
      else if a < 0xe0 then ⟨some (Char.ofNat ((a - 0xc0) * 64 + (b - 0x80))), rest₁⟩
      else
        match rest₁ with
        | [] => ⟨none, rest₁⟩
        | c :: rest₂ =>
          let c := c.toNat
          if !isTail c then ⟨none, rest₁⟩
          else if a < 0xf0 then
            ⟨some (Char.ofNat ((a - 0xe0) * 4096 + (b - 0x80) * 64 + (c - 0x80))), rest₂⟩
          else
            match rest₂ with
            | [] => ⟨none, rest₂⟩
            | d :: rest₃ =>
              let d := d.toNat
              if !isTail d then ⟨none, rest₂⟩
              else
                ⟨some (Char.ofNat
                  ((a - 0xf0) * 262144 + (b - 0x80) * 4096 + (c - 0x80) * 64 + (d - 0x80))), rest₃⟩
    | _, _ => ⟨none, rest⟩

/-- Reading the front never gives bytes back. -/
theorem length_rest_next (lead : UInt8) (bytes : List UInt8) :
    (next lead bytes).rest.length ≤ bytes.length := by
  simp only [next]
  repeat' split
  all_goals simp only [List.length_cons, List.length_nil]
  all_goals omega

/-- Read text behind the characters `read`, which are listed backwards, and put one replacement
character for each broken piece. -/
def decodeLossyFrom (read : List Char) : List UInt8 → List Char
  | [] => read.reverse
  | lead :: bytes =>
    let front := next lead bytes
    decodeLossyFrom (front.char?.getD replacement :: read) front.rest
  termination_by bytes => bytes.length
  decreasing_by exact Nat.lt_succ_of_le (length_rest_next lead bytes)

/-- The text of a byte string in which each broken piece is replaced by one character. -/
def decodeLossy (bytes : List UInt8) : List Char := decodeLossyFrom [] bytes

/-- Read text behind the characters `read`, which are listed backwards. -/
def decodeFrom? (read : List Char) : List UInt8 → Option (List Char)
  | [] => some read.reverse
  | lead :: bytes =>
    let front := next lead bytes
    match front.char? with
    | some c => decodeFrom? (c :: read) front.rest
    | none => none
  termination_by bytes => bytes.length
  decreasing_by exact Nat.lt_succ_of_le (length_rest_next lead bytes)

/-- The text of a byte string, if all of it is well formed. -/
def decode? (bytes : List UInt8) : Option (List Char) := decodeFrom? [] bytes

end Utf8

end TapeMachine
