import TapeMachine.Machine.Basic

/-!
# Snapshots

A `Snapshot` is what can be seen of a machine from outside, without its tape.  `Snapshot.render`
writes it as a JSON object, one field or list element a line.
-/

namespace TapeMachine

/-- What is shown of a machine. -/
structure Snapshot where
  /-- The name of the status. -/
  status : String
  /-- The message of the fault, if there is one. -/
  fault : Option String
  ip : Nat
  steps : Nat
  /-- The stack entries, bottom first. -/
  stack : List Word
  flags : Flags
  deriving DecidableEq, Repr

/-- What is shown of a machine. -/
def Machine.snapshot (m : Machine) : Snapshot where
  status := m.status.name
  fault := m.status.fault?.map Fault.message
  ip := m.ip
  steps := m.steps
  stack := m.stack.toList
  flags := m.flags

namespace Snapshot

/-- How a character is written in a JSON string. -/
def jsonChar (c : Char) : List Char :=
  if c = '\x22' then ['\x5c', '\x22']
  else if c = '\x5c' then ['\x5c', '\x5c']
  else if c = '\x08' then ['\x5c', 'b']
  else if c = '\x0c' then ['\x5c', 'f']
  else if c = '\n' then ['\x5c', 'n']
  else if c = '\r' then ['\x5c', 'r']
  else if c = '\t' then ['\x5c', 't']
  else if c.toNat < 0x20 then
    ['\x5c', 'u', '0', '0', Nat.digitChar (c.toNat / 16), Nat.digitChar (c.toNat % 16)]
  else [c]

/-- A JSON string. -/
def jsonString (s : String) : String :=
  String.ofList ('\x22' :: s.toList.flatMap jsonChar ++ ['\x22'])

/-- A field of a JSON object. -/
def jsonField (name value : String) : String := s!"{jsonString name}: {value}"

/-- JSON items between brackets, one a line and indented by `indent`; just the brackets when there
are no items. -/
def jsonBlock (opening closing : String) (indent : Nat) (items : List String) : String :=
  if items.isEmpty then opening ++ closing
  else
    let margin := String.ofList (List.replicate indent ' ')
    let outer := String.ofList (List.replicate (indent - 2) ' ')
    opening ++ "\n" ++ ",\n".intercalate (items.map (margin ++ ·)) ++ "\n" ++ outer ++ closing

/-- A snapshot as JSON text. -/
def render (s : Snapshot) : String :=
  let flag := fun (name, value) => jsonField name (if value then "true" else "false")
  jsonBlock "\x7b" "\x7d" 2
    [jsonField "status" (jsonString s.status),
      jsonField "fault" (s.fault.elim "null" jsonString),
      jsonField "ip" (toString s.ip),
      jsonField "steps" (toString s.steps),
      jsonField "stack" (jsonBlock "[" "]" 4 (s.stack.map fun v => toString v.toInt)),
      jsonField "flags" (jsonBlock "\x7b" "\x7d" 4 (s.flags.fields.map flag))]

end Snapshot

end TapeMachine
