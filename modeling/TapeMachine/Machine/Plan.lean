import TapeMachine.Machine.Action

/-!
# What an instruction needs and what it changes

The instructions once more, without the order of their work.

* `Machine.objection?` is the reason why an instruction cannot be executed, if there is one.  Every
  instruction is checked for the same things in the same order: its immediate, its operands, the
  addresses they denote, its divisor, room on the stack;
* `Machine.intent` is what an instruction changes when there is no objection: an `Effect`, possibly
  one that depends on an answer of the console (`Plan.ask`);
* `Machine.commit` carries an effect out and cannot fail.

`Action.perform` changes the machine as it goes and finds its objections on the way.  On a machine
whose stack keeps to its limit, the two come to the same.
-/

namespace TapeMachine

/-- The fault of touching `length` bytes from `address` on, if they do not all lie on the tape. -/
def Tape.stray? (t : Tape) (address : Word) (length : Int) : Option Fault :=
  if length < 0 then some (t.outside (address.toInt + length) 0)
  else if address.toInt < 0 ∨ t.capacity < address.toInt + length then
    some (t.outside address.toInt length.toNat)
  else none

/-- Where execution goes on after an instruction. -/
inductive Flow
  /-- At the instruction behind this one. -/
  | next
  /-- At `target`. -/
  | jump (target : Nat)
  /-- Nowhere: the machine halts. -/
  | halt
  deriving DecidableEq, Repr

/-- What an instruction changes. -/
structure Effect where
  /-- Number of entries taken off the stack. -/
  taken : Nat := 0
  /-- The entries put on the stack instead, top first. -/
  added : List Word := []
  /-- The bytes written on the tape and the address of the first. -/
  written : Option (Nat × List UInt8) := none
  /-- The new flags, if they change. -/
  flags : Option Flags := none
  /-- Where execution goes on. -/
  flow : Flow := .next
  deriving DecidableEq, Repr

/-- What is left to do once the checks have passed. -/
inductive Plan
  /-- Carry out an effect. -/
  | commit (e : Effect)
  /-- Ask the console, and carry out the effect its answer calls for. -/
  | ask (r : Request) (effect : r.Answer → Effect)

namespace Machine

variable (m : Machine) (op : Opcode)

/-- The word behind the opcode. -/
def immediate : Word := m.tape.word (m.ip + 1)

/-- The entry below `n` others. -/
def operand (n : Nat) : Word := m.stack.entry n

/-! ### Objections -/

/-- The immediate does not fit between the opcode and the end of the tape. -/
def truncated? : Option Fault :=
  if op.hasImmediate ∧ m.tape.capacity < m.ip + op.size then
    some (m.tape.outside (m.ip + 1 : Nat) Word.width)
  else none

/-- There are too few operands. -/
def underflow? : Option Fault :=
  if m.stack.depth < op.operandCount then
    some (.stackUnderflow op.mnemonic op.operandCount m.stack.depth)
  else none

/-- The address an instruction is going to touch or to jump to, and the number of bytes there. -/
def reach? : Option (Word × Int) :=
  match op with
  | .load => some (m.operand 0, Word.width)
  | .store => some (m.operand 1, Word.width)
  | .call | .ret => some (m.operand 0, 1)
  | .jump => some (m.immediate, 1)
  | .jumpIf c => if m.flags.holds c then some (m.immediate, 1) else none
  | .printString | .readString => some (m.operand 1, (m.operand 0).toInt)
  | _ => none

/-- The instruction touches something that does not lie on the tape. -/
def stray? : Option Fault := (m.reach? op).bind fun (address, length) => m.tape.stray? address length

/-- The divisor is zero. -/
def zeroDivisor? : Option Fault :=
  if op.divides ∧ m.operand 0 = 0 then some (.divisionByZero op.mnemonic) else none

/-- There is no room on the stack. -/
def overflow? : Option Fault :=
  if op.grows ∧ m.stack.limit < m.stack.depth + 1 then some (.stackOverflow m.stack.limit) else none

/-- Why an instruction cannot be executed. -/
def objection? : Option Fault :=
  (m.truncated? op).or <| (m.underflow? op).or <| (m.stray? op).or <|
    (m.zeroDivisor? op).or (m.overflow? op)

variable {m op}

theorem truncated?_eq_none_iff :
    m.truncated? op = none ↔ (op.hasImmediate = true → m.ip + op.size ≤ m.tape.capacity) := by
  simp [truncated?]

theorem truncated?_of_lt (hi : op.hasImmediate = true) (h : m.tape.capacity < m.ip + op.size) :
    m.truncated? op = some (m.tape.outside (m.ip + 1 : Nat) Word.width) :=
  if_pos ⟨hi, h⟩

theorem underflow?_eq_none_iff : m.underflow? op = none ↔ op.operandCount ≤ m.stack.depth := by
  simp [underflow?]

theorem underflow?_of_lt (h : m.stack.depth < op.operandCount) :
    m.underflow? op = some (.stackUnderflow op.mnemonic op.operandCount m.stack.depth) :=
  if_pos h

theorem stray?_of_reach?_eq_none (h : m.reach? op = none) : m.stray? op = none := by
  simp [stray?, h]

theorem stray?_of_reach?_eq_some {a : Word} {n : Int} (h : m.reach? op = some (a, n)) :
    m.stray? op = m.tape.stray? a n := by
  simp [stray?, h]

theorem zeroDivisor?_eq_none_iff :
    m.zeroDivisor? op = none ↔ (op.divides = true → m.operand 0 ≠ 0) := by
  simp [zeroDivisor?]

theorem zeroDivisor?_of_eq (hd : op.divides = true) (h : m.operand 0 = 0) :
    m.zeroDivisor? op = some (.divisionByZero op.mnemonic) :=
  if_pos ⟨hd, h⟩

theorem overflow?_eq_none_iff :
    m.overflow? op = none ↔ (op.grows = true → m.stack.depth < m.stack.limit) := by
  rw [Nat.lt_iff_add_one_le]
  simp [overflow?]

theorem overflow?_of_le (hg : op.grows = true) (h : m.stack.limit ≤ m.stack.depth) :
    m.overflow? op = some (.stackOverflow m.stack.limit) :=
  if_pos ⟨hg, Nat.lt_succ_of_le h⟩

theorem objection?_of_truncated (hi : op.hasImmediate = true)
    (h : m.tape.capacity < m.ip + op.size) :
    m.objection? op = some (m.tape.outside (m.ip + 1 : Nat) Word.width) := by
  simp [objection?, truncated?_of_lt hi h]

theorem objection?_of_underflow (ht : m.truncated? op = none)
    (h : m.stack.depth < op.operandCount) :
    m.objection? op = some (.stackUnderflow op.mnemonic op.operandCount m.stack.depth) := by
  simp [objection?, ht, underflow?_of_lt h]

theorem objection?_of_stray {e : Fault} (ht : m.truncated? op = none)
    (hu : op.operandCount ≤ m.stack.depth) (h : m.stray? op = some e) :
    m.objection? op = some e := by
  simp [objection?, ht, underflow?_eq_none_iff.2 hu, h]

theorem objection?_of_zeroDivisor {e : Fault} (ht : m.truncated? op = none)
    (hu : op.operandCount ≤ m.stack.depth) (hs : m.stray? op = none)
    (h : m.zeroDivisor? op = some e) : m.objection? op = some e := by
  simp [objection?, ht, underflow?_eq_none_iff.2 hu, hs, h]

theorem objection?_of_overflow {e : Fault} (ht : m.truncated? op = none)
    (hu : op.operandCount ≤ m.stack.depth) (hs : m.stray? op = none)
    (hz : m.zeroDivisor? op = none) (h : m.overflow? op = some e) : m.objection? op = some e := by
  simp [objection?, ht, underflow?_eq_none_iff.2 hu, hs, hz, h]

/-- There is no objection exactly when no check has one. -/
theorem objection?_eq_none_iff :
    m.objection? op = none ↔
      m.truncated? op = none ∧ m.underflow? op = none ∧ m.stray? op = none ∧
        m.zeroDivisor? op = none ∧ m.overflow? op = none := by
  simp [objection?]

/-- An instruction without an immediate that neither divides nor makes the stack grow can only
lack operands or go astray. -/
theorem objection?_eq_none_of_operands (hi : op.hasImmediate = false) (hd : op.divides = false)
    (hg : op.grows = false) (hu : op.operandCount ≤ m.stack.depth) (hs : m.stray? op = none) :
    m.objection? op = none :=
  objection?_eq_none_iff.2 ⟨truncated?_eq_none_iff.2 (by simp [hi]), underflow?_eq_none_iff.2 hu, hs,
    zeroDivisor?_eq_none_iff.2 (by simp [hd]), overflow?_eq_none_iff.2 (by simp [hg])⟩

variable (m op)

/-! ### Effects -/

/-- The address a word denotes. -/
def addressOf (v : Word) : Nat := v.toInt.toNat

/-- What `READ_STRING` does with a line: it is stored at the front of the region if it fits, and
its length or `lineTooLong` replaces the operands. -/
def storeLine (start length : Nat) (line : String) : Effect :=
  let bytes := Utf8.encode line.toList
  if length < bytes.length then { taken := 2, added := [lineTooLong] }
  else { taken := 2, added := [Int32.ofNat bytes.length], written := some (start, bytes) }

/-- What an instruction does when there is no objection to it. -/
def intent : Plan :=
  let a := m.operand 1
  let b := m.operand 0
  match op with
  | .nop => .commit {}
  | .push | .const => .commit { added := [m.immediate] }
  | .pop => .commit { taken := 1 }
  | .load => .commit { taken := 1, added := [m.tape.word (addressOf b)] }
  | .store => .commit { taken := 2, written := some (addressOf a, b.encode) }
  | .arith o => .commit { taken := 2, added := [(o.eval? a b).getD 0] }
  | .call =>
    .commit { taken := 1, added := [Int32.ofNat (m.ip + op.size)], flow := .jump (addressOf b) }
  | .ret => .commit { taken := 1, flow := .jump (addressOf b) }
  | .dup => .commit { added := [b] }
  | .swap => .commit { taken := 2, added := [a, b] }
  | .cmp => .commit { taken := 2, flags := some (m.flags.compare a b) }
  | .test => .commit { taken := 1, flags := some (m.flags.test b) }
  | .jump => .commit { flow := .jump (addressOf m.immediate) }
  | .jumpIf c =>
    if m.flags.holds c then .commit { flow := .jump (addressOf m.immediate) } else .commit {}
  | .printInt => .ask (.writeNumber b) fun _ => { taken := 1 }
  | .printString =>
    let bytes := m.tape.slice (addressOf a) (addressOf b)
    .ask (.writeText (String.ofList (Utf8.decodeLossy bytes))) fun _ => { taken := 2 }
  | .readInt => .ask .readNumber fun v => { added := [v] }
  | .readString => .ask .readText (storeLine (addressOf a) (addressOf b))
  | .halt => .commit { flow := .halt }

/-- Carry out the effect of an instruction. -/
def commit (e : Effect) : Machine where
  tape := match e.written with
    | none => m.tape
    | some (start, bytes) => m.tape.put start bytes
  stack := m.stack.replace e.taken e.added
  flags := e.flags.getD m.flags
  ip := match e.flow with
    | .next => m.ip + op.size
    | .jump t => t
    | .halt => m.ip
  steps := m.steps
  status := match e.flow with
    | .halt => .halted
    | _ => m.status

end Machine

end TapeMachine
