import TapeMachine.Fault

/-!
# The operand stack

A stack of words with a limit on its depth.  The entries are listed top first.

* `Stack.require` and `Stack.reserve` check for entries and for room: too few entries are
  `Fault.stackUnderflow`, too little room is `Fault.stackOverflow`;
* `Stack.push`, `Stack.pop`, `Stack.peek` and `Stack.peekAt` check and then act;
* `Stack.entry` looks at an entry and `Stack.replace` exchanges entries at the top without a check.
-/

namespace TapeMachine

/-- A stack of words of bounded depth. -/
structure Stack where
  /-- The entries, top first. -/
  entries : List Word
  /-- The greatest depth allowed. -/
  limit : Nat
  /-- The number of entries, kept beside them so that it need not be counted. -/
  depth : Nat
  /-- `depth` is the number of entries. -/
  depth_eq : depth = entries.length

namespace Stack

/-- The limit of a stack when none is asked for. -/
def defaultLimit : Nat := 65536

/-- A stack with no entries. -/
def empty (limit : Nat) : Stack := ⟨[], limit, 0, rfl⟩

@[ext] theorem ext {s t : Stack} (he : s.entries = t.entries) (hl : s.limit = t.limit) : s = t := by
  obtain ⟨es, l, d, hd⟩ := s
  obtain ⟨et, l', d', hd'⟩ := t
  simp only at he hl
  subst he hl hd hd'
  rfl

instance : DecidableEq Stack := fun s t =>
  decidable_of_iff (s.entries = t.entries ∧ s.limit = t.limit)
    ⟨fun h => ext h.1 h.2, fun h => by simp [h]⟩

/-- The entries, bottom first. -/
def toList (s : Stack) : List Word := s.entries.reverse

/-- Whether there is no entry. -/
def isEmpty (s : Stack) : Bool := s.entries.isEmpty

/-- Check that there are `count` entries for `instruction`. -/
def require (s : Stack) (count : Nat) (instruction : String) : Except Fault Unit :=
  if s.depth < count then .error (.stackUnderflow instruction count s.depth) else .ok ()

/-- Check that there is room for `count` more entries. -/
def reserve (s : Stack) (count : Nat) : Except Fault Unit :=
  if s.limit < s.depth + count then .error (.stackOverflow s.limit) else .ok ()

/-- The entry below `n` others, zero if there is none. -/
def entry (s : Stack) (n : Nat) : Word := s.entries.getD n 0

/-- The entry below `n` others. -/
def peekAt (s : Stack) (n : Nat) (instruction : String) : Except Fault Word :=
  match s.entries[n]? with
  | some v => .ok v
  | none => .error (.stackUnderflow instruction (n + 1) s.depth)

/-- The top entry. -/
def peek (s : Stack) (instruction : String) : Except Fault Word := s.peekAt 0 instruction

/-- Take `taken` entries off the top and put `added` in their place, its first entry on top. -/
def replace (s : Stack) (taken : Nat) (added : List Word) : Stack :=
  ⟨added ++ s.entries.drop taken, s.limit, added.length + (s.depth - taken), by
    simp [s.depth_eq]⟩

/-- Put an entry on top. -/
def push (s : Stack) (v : Word) : Except Fault Stack := do
  s.reserve 1
  return s.replace 0 [v]

/-- Take the top entry off. -/
def pop (s : Stack) (instruction : String) : Except Fault (Word × Stack) := do
  let v ← s.peek instruction
  return (v, s.replace 1 [])

/-- Drop every entry. -/
def clear (s : Stack) : Stack := empty s.limit

@[simp] theorem entries_replace (s : Stack) (taken : Nat) (added : List Word) :
    (s.replace taken added).entries = added ++ s.entries.drop taken := rfl

@[simp] theorem limit_replace (s : Stack) (taken : Nat) (added : List Word) :
    (s.replace taken added).limit = s.limit := rfl

@[simp] theorem depth_replace (s : Stack) (taken : Nat) (added : List Word) :
    (s.replace taken added).depth = added.length + (s.depth - taken) := rfl

end Stack

end TapeMachine
