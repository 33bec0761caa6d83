import TapeMachine.Assembly.Source
import TapeMachine.Command.Run
import TapeMachine.Console.Script

/-!
# The conformance command

A fixed list of checks, most of which assemble a small program, run it at a scripted console and
look at the machine afterwards.
-/

namespace TapeMachine

namespace Command

namespace Conformance

/-- Number of steps after which a checked program is cut off. -/
def fuel : Nat := 10000

/-- The log settings of the checks. -/
def logSettings (env : Environment) : Log.Settings := { colored := env.colored }

/-- A check: its result, with the reason of a failure, and what was logged. -/
structure Check where
  name : String
  run : Log.Settings → Except String Unit × String

/-- Assemble and run a program until it stops. -/
def execute (log : Log.Settings) (config : Config) (source : String) :
    Except String (Session Script) := do
  let image ← (assemble source).mapError Assembly.Error.message
  let session ← (Session.start log config image (Script.ofLines [])).mapError Fault.message
  let session := session.run fuel
  if session.machine.status.isRunning then .error s!"still running after {fuel} steps"
  else return session

/-- A check that runs a program and looks at the machine and the console afterwards. -/
def programCheck (config : Config) (name source : String)
    (expect : Machine → Script → Except String Unit) : Check where
  name
  run log :=
    match execute log config source with
    | .error e => (.error e, "")
    | .ok session => (expect session.machine session.console, session.journal)

/-- A check that runs nothing. -/
def plainCheck (name : String) (result : Except String Unit) : Check :=
  ⟨name, fun _ => (result, "")⟩

/-- Fail for a reason unless a condition holds. -/
def ensure (condition : Bool) (reason : String) : Except String Unit :=
  if condition then .ok () else .error reason

/-- Expect a fault of the given kind. -/
def expectFault (m : Machine) (kind : String) (isKind : Fault → Bool) : Except String Unit :=
  ensure (m.status.fault?.any isKind) s!"expected {kind} fault, got {m.status.name}"

/-- The opcodes whose bytes are checked. -/
def expectedBytes : List (Opcode × UInt8) :=
  [(.nop, 0x00), (.push, 0x01), (.const, 0x03), (.cmp, 0x0f), (.jump, 0x10), (.readString, 0x18),
    (.test, 0x19), (.jumpIf .below, 0xf0), (.jumpIf .aboveOrEqual, 0xf5), (.halt, 0xff)]

/-- The words that are written and read back. -/
def sampleWords : List Word := [0, 1, -1, 255, 256, 2147483647, -2147483648, 0x12345678]

/-- Check the bytes of the instruction table. -/
def checkOpcodes : Except String Unit := do
  for (op, byte) in expectedBytes do
    ensure (op.byte == byte)
      s!"{op.mnemonic} is 0x{Text.hexByte op.byte}, expected 0x{Text.hexByte byte}"
  ensure (Opcode.ofByte? 0x42).isNone "0x42 decodes"

/-- Check that words are read back from their bytes. -/
def checkWords : Except String Unit := do
  for v in sampleWords do
    ensure (Word.decode v.encode == some v) s!"{v.toDecimal} did not survive"

/-- The checks, in order. -/
def checks : List Check :=
  [plainCheck "OPCODE_TABLE" checkOpcodes,
    plainCheck "WORD_ROUND_TRIP" checkWords,
    programCheck {} "ADD_AND_PRINT" "PUSH 3\nPUSH 4\nADD\nPRINT_INT\nHALT" fun m c => do
      ensure (m.status == .halted) s!"status {m.status.name}"
      ensure (c.output == "7") s!"printed {Text.quoted c.output}",
    programCheck {} "CMP_EQUAL_TAKES_JE"
      ("PUSH 5\nPUSH 5\nCMP\nJE hit\nPUSH 0\nPRINT_INT\nHALT\n" ++
        "hit: PUSH 1\nPRINT_INT\nHALT") fun m c => do
      ensure (c.output == "1") "JE not taken"
      ensure (m.flags.equal && !m.flags.above && !m.flags.below) "flags differ",
    programCheck {} "POP_EMPTY_UNDERFLOWS" "POP\nHALT" fun m c => do
      expectFault m "StackUnderflow" fun e => e matches .stackUnderflow ..
      ensure c.events.isEmpty "produced output",
    programCheck {} "PUSH_POP_RESTORES_STACK" "PUSH 1\nPUSH 2\nPUSH 99\nPOP\nHALT" fun m _ =>
      ensure (m.stack.toList == [1, 2]) "stack differs",
    programCheck {} "ADD_WRAPS_AROUND" "PUSH 2147483647\nPUSH 1\nADD\nPRINT_INT\nHALT" fun _ c =>
      ensure (c.output == "-2147483648") s!"printed {Text.quoted c.output}",
    programCheck {} "DIV_BY_ZERO_TRAPS" "PUSH 9\nPUSH 0\nDIV\nHALT" fun m _ =>
      expectFault m "Arithmetic" fun e => e matches .divisionByZero ..,
    programCheck { tapeCapacity := 64 } "CALL_OUT_OF_BOUNDS" "PUSH 1000\nCALL\nHALT" fun m _ => do
      expectFault m "Bounds" fun e => e matches .bounds ..
      ensure (m.stack.toList == [1000]) "stack mutated",
    programCheck {} "CALL_RET_RESUMES"
      ("PUSH sub\nCALL\nPUSH 2\nPRINT_INT\nHALT\n" ++ "sub: PUSH 1\nPRINT_INT\nRET") fun m c =>
      ensure (m.status == .halted && c.output == "12")
        s!"printed {Text.quoted c.output}, status {m.status.name}"]

/-- A line of 80 copies of a character. -/
def rule (c : Char) : String := String.ofList (List.replicate 80 c) ++ "\n"

/-- What is printed before the checks. -/
def banner : String :=
  "\n" ++ rule '=' ++ "TAPEVM // CONFORMANCE RUN\n" ++ rule '=' ++
  "Byte-coded stack machine: 4-byte LE words, flat tape, operand stack, flags.\n" ++
  "Every check below assembles a small program, runs it against a scripted\n" ++
  "console and inspects the final machine.\n" ++ rule '=' ++ "\n"

/-- A text in a style, where colors are wanted. -/
def paint (colored : Bool) (style text : String) : String :=
  if colored then Log.styled style text else text

/-- The line of a check. -/
def resultLine (colored : Bool) (name : String) (result : Except String Unit) : String :=
  let verdict := match result with
    | .ok () => paint colored "32" "PASS" ++ "\n"
    | .error reason => paint colored "31" "FAIL" ++ s!"\n  -> {reason}\n"
  s!"CHECK: {Text.padRight 30 name} ... {verdict}"

/-- Whether a check passed. -/
def passed : Except String Unit → Bool
  | .ok () => true
  | .error _ => false

/-- Run all checks and report. -/
def report (env : Environment) : Outcome :=
  let log := logSettings env
  let results := checks.map fun check => (check.name, check.run log)
  let lines := results.map fun (name, result, _) => resultLine log.colored name result
  let passes := (results.filter fun (_, result, _) => passed result).length
  let failures := results.length - passes
  let closing :=
    if failures = 0 then paint log.colored "1;32" "ALL CHECKS PASSED." ++ "\n" else ""
  let text :=
    banner ++ String.join lines ++ "\n" ++ rule '-' ++
      s!"{passes} passed, {failures} failed\n" ++ closing
  { code := if failures = 0 then 0 else 1
    stdout := textBytes text
    stderr := String.join (results.map fun (_, _, journal) => journal) }

end Conformance

end Command

end TapeMachine
