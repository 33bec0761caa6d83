import TapeMachine.Proofs.Dialogue
import TapeMachine.Proofs.Dispatch
import TapeMachine.Proofs.Utf8

/-!
# Straight-line code

What a program does, said for its parts.  A `Machine.Block` leads from one point of a program to
another in a known number of steps, prints known events, and leaves the tape alone.  Blocks of one
instruction come from what the instruction does when there is no objection to it
(`Machine.Block.of_commit`, `Machine.Block.of_print`), and blocks that meet are put together by
`Machine.Block.trans`.
-/

namespace TapeMachine

/-! ### Bytes on the tape -/

/-- The bytes `data` stand on the tape from `position` on. -/
def Tape.Holds (t : Tape) (position : Nat) (data : List UInt8) : Prop :=
  ∀ j < data.length, t.cells[position + j]? = data[j]?

theorem Tape.holds_of_append {t : Tape} {front data back : List UInt8}
    (h : t.cells.toList = front ++ data ++ back) : t.Holds front.length data := by
  intro j hj
  rw [← Array.getElem?_toList, h, List.append_assoc,
    List.getElem?_append_right (Nat.le_add_right _ _), Nat.add_sub_cancel_left,
    List.getElem?_append_left hj]

theorem Tape.Holds.slice_eq {t : Tape} {position : Nat} {data : List UInt8}
    (h : t.Holds position data) : t.slice position data.length = data := by
  refine List.ext_getElem? fun j => ?_
  rw [slice, Array.getElem?_toList, Array.getElem?_extract]
  by_cases hj : j < data.length
  · have hbyte := h j hj
    obtain ⟨hlt, -⟩ := Array.getElem?_eq_some_iff.1 (hbyte.trans (List.getElem?_eq_getElem hj))
    rw [if_pos (by omega), hbyte]
  · rw [if_neg (by omega), List.getElem?_eq_none (by omega)]

/-- The items of a program at the front of the tape stand where the sizes of those before them add
up to. -/
theorem Tape.holds_item {t : Tape} {items : List Assembly.CodeItem} {address : String → Word}
    {back : List UInt8} {i : Nat} {x : Assembly.CodeItem}
    (h : t.cells.toList = items.flatMap (Assembly.CodeItem.bytes address) ++ back)
    (hi : items[i]? = some x) :
    t.Holds (Assembly.codeSize (items.take i)) (x.bytes address) := by
  obtain ⟨hlt, rfl⟩ := List.getElem?_eq_some_iff.1 hi
  have hcells : t.cells.toList =
      (items.take i).flatMap (Assembly.CodeItem.bytes address) ++ items[i].bytes address ++
        ((items.drop (i + 1)).flatMap (Assembly.CodeItem.bytes address) ++ back) := by
    rw [h, ← List.append_assoc, List.append_assoc (List.flatMap _ _), ← List.flatMap_cons,
      ← List.flatMap_append, List.getElem_cons_drop, List.take_append_drop]
  rw [← Assembly.length_flatMap_bytes address]
  exact holds_of_append hcells

/-- The script after some more events. -/
def Script.recordAll (c : Script) (printed : List Event) : Script := printed.foldl record c

@[simp] theorem Script.events_recordAll (c : Script) (printed : List Event) :
    (c.recordAll printed).events.toList = c.events.toList ++ printed := by
  induction printed generalizing c with
  | nil => simp [recordAll]
  | cons e printed ih =>
    refine (ih (c.record e)).trans ?_
    simp [record]

namespace Machine

open Assembly (CodeItem)

/-- Where a machine stands in a program. -/
structure Point where
  /-- The address of the next instruction. -/
  ip : Nat
  /-- The entries of the stack, top first. -/
  entries : List Word
  /-- The flags. -/
  flags : Flags

/-- The machine is running on the tape `t` and has come to the point `p`. -/
structure Stands (m : Machine) (t : Tape) (p : Point) : Prop where
  tape_eq : m.tape = t
  status_eq : m.status = .running
  ip_eq : m.ip = p.ip
  entries_eq : m.stack.entries = p.entries
  flags_eq : m.flags = p.flags

/-- The point that an effect leads to. -/
def Point.commit (p : Point) (op : Opcode) (e : Effect) : Point where
  ip := match e.flow with
    | .next => p.ip + op.size
    | .jump target => target
    | .halt => p.ip
  entries := e.added ++ p.entries.drop e.taken
  flags := e.flags.getD p.flags

/-- The stack has what an instruction needs: its operands, and room if it makes the stack grow.  An
instruction that divides needs more than that. -/
structure Point.Admits (p : Point) (config : Config) (op : Opcode) : Prop where
  operands : op.operandCount ≤ p.entries.length
  room : op.grows = true → p.entries.length < config.maxStackDepth
  divides : op.divides = false

/-- From `p`, `k` steps lead to `p'` and print `printed`. -/
def Block (config : Config) (t : Tape) (p : Point) (k : Nat) (p' : Point)
    (printed : List Event) : Prop :=
  ∀ (m : Machine) (c : Script), m.Conforms config → m.Stands t p →
    ∃ m', stepN k m c = (m', c.recordAll printed) ∧ m'.Stands t p'

variable {config : Config} {m m' : Machine} {t : Tape} {p p' p'' : Point} {x : CodeItem}
  {address : String → Word} {op : Opcode} {e : Effect} {k k' ip : Nat}
  {printed printed' : List Event} {v w : Word} {es : List Word} {f : Flags}

theorem Conforms.of_step {κ : Type} [Console κ] {c c' : κ} (hm : m.Conforms config)
    (h : m.step c = (m', c')) : m'.Conforms config := by
  have hstep := hm.step c
  rwa [h] at hstep

theorem Conforms.of_stepN {κ : Type} [Console κ] {c c' : κ} (hm : m.Conforms config)
    (h : Machine.stepN k m c = (m', c')) : m'.Conforms config := by
  have hstep := hm.stepN c k
  rwa [h] at hstep

/-- Printing a region that holds the bytes of a text is printing that text. -/
theorem intent_printString {text : String}
    (hlength : addressOf (m.operand 0) = (Utf8.encode text.toList).length)
    (htext : m.tape.Holds (addressOf (m.operand 1)) (Utf8.encode text.toList)) :
    m.intent .printString = .ask (.writeText text) fun _ => { taken := 2 } := by
  rw [intent, hlength, htext.slice_eq, Utf8.decodeLossy_encode, String.ofList_toList]

namespace Stands

theorem depth_eq (h : m.Stands t p) : m.stack.depth = p.entries.length := by
  rw [m.stack.depth_eq, h.entries_eq]

theorem operand_eq (h : m.Stands t p) (n : Nat) : m.operand n = p.entries.getD n 0 := by
  rw [operand, Stack.entry, h.entries_eq]

theorem faces (h : m.Stands t p) (hx : t.Holds p.ip (x.bytes address)) : m.Faces x address := by
  intro j hj
  rw [h.tape_eq, h.ip_eq]
  exact hx j (by rwa [CodeItem.length_bytes])

theorem commit (h : m.Stands t p) (hw : e.written = none) (hflow : e.flow ≠ .halt) :
    (m.count.commit op e).Stands t (p.commit op e) where
  tape_eq := by
    simp only [Machine.commit, hw]
    exact h.tape_eq
  status_eq := by
    simp only [Machine.commit]
    exact h.status_eq
  ip_eq := by
    cases hto : e.flow with
    | next => simp only [Machine.commit, Point.commit, hto, count, h.ip_eq]
    | jump target => simp only [Machine.commit, Point.commit, hto]
    | halt => exact absurd hto hflow
  entries_eq := by
    simp only [Machine.commit, Point.commit, count, Stack.entries_replace, h.entries_eq]
  flags_eq := by
    simp only [Machine.commit, Point.commit, count, h.flags_eq]

theorem objection?_eq_none (h : m.Stands t p) (hm : m.Conforms config)
    (hx : t.Holds p.ip (x.bytes address)) (hop : x.opcode? = some op) (hp : p.Admits config op)
    (hstray : m.stray? op = none) : m.objection? op = none := by
  have hfits := (h.faces hx).fits hop
  refine objection?_eq_none_iff.2 ⟨truncated?_eq_none_iff.2 fun _ => hfits,
    underflow?_eq_none_iff.2 ?_, hstray, zeroDivisor?_eq_none_iff.2 ?_, overflow?_eq_none_iff.2 ?_⟩
  · rw [h.depth_eq]
    exact hp.operands
  · simp [hp.divides]
  · rw [h.depth_eq, hm.limit_eq]
    exact hp.room

end Stands

namespace Block

theorem refl (p : Point) : Block config t p 0 p [] := fun m _ _ hs => ⟨m, rfl, hs⟩

theorem trans (h : Block config t p k p' printed) (h' : Block config t p' k' p'' printed') :
    Block config t p (k + k') p'' (printed ++ printed') := by
  intro m c hm hs
  obtain ⟨m', hstep, hs'⟩ := h m c hm hs
  obtain ⟨m'', hstep', hs''⟩ := h' m' (c.recordAll printed) (hm.of_stepN hstep) hs'
  refine ⟨m'', ?_, hs''⟩
  rw [stepN_add, hstep, hstep', Script.recordAll, Script.recordAll, Script.recordAll,
    List.foldl_append]

/-! ### One instruction -/

section

variable (hx : t.Holds p.ip (x.bytes address)) (hop : x.opcode? = some op) (hp : p.Admits config op)

include hx hop hp

/-- An instruction that carries out an effect. -/
theorem of_commit (hw : e.written = none) (hflow : e.flow ≠ .halt)
    (h : ∀ m : Machine, m.Stands t p → m.stray? op = none ∧ m.intent op = .commit e) :
    Block config t p 1 (p.commit op e) [] := by
  intro m c hm hs
  obtain ⟨hstray, hi⟩ := h m hs
  have hf := (hs.faces hx).fetches hop
  have ho := hs.objection?_eq_none hm hx hop hp hstray
  refine ⟨_, ?_, hs.commit hw hflow⟩
  exact step_of_commit hm.withinLimits hs.status_eq hf ho hi

/-- An instruction that prints and then carries out an effect. -/
theorem of_print {r : Request} {event : Event} (hw : e.written = none) (hflow : e.flow ≠ .halt)
    (hr : ∀ c : Script, ∃ a, Console.respond r c = (.ok a, c.record event))
    (h : ∀ m : Machine, m.Stands t p → m.stray? op = none ∧ m.intent op = .ask r fun _ => e) :
    Block config t p 1 (p.commit op e) [event] := by
  intro m c hm hs
  obtain ⟨hstray, hi⟩ := h m hs
  obtain ⟨a, ha⟩ := hr c
  have hf := (hs.faces hx).fetches hop
  have ho := hs.objection?_eq_none hm hx hop hp hstray
  refine ⟨_, ?_, hs.commit hw hflow⟩
  exact step_of_answer hm.withinLimits hs.status_eq hf ho hi ha

end

section

variable (hx : t.Holds ip (x.bytes address))

include hx

theorem push (hop : x.opcode? = some op) (hpush : op = .push ∨ op = .const)
    (hv : x.immediate? address = some v) (hroom : es.length < config.maxStackDepth) :
    Block config t ⟨ip, es, f⟩ 1 ⟨ip + 5, v :: es, f⟩ [] := by
  have hi : ∀ m : Machine, m.Stands t ⟨ip, es, f⟩ → m.immediate = v :=
    fun m hs => (hs.faces hx).immediate_eq hv
  rcases hpush with rfl | rfl
  all_goals
    refine of_commit (e := { added := [v] }) hx hop ⟨Nat.zero_le _, fun _ => hroom, rfl⟩ rfl
      (by simp) fun m hs => ⟨rfl, ?_⟩
    rw [intent, hi m hs]

theorem pop (hop : x.opcode? = some .pop) :
    Block config t ⟨ip, v :: es, f⟩ 1 ⟨ip + 1, es, f⟩ [] :=
  of_commit (e := { taken := 1 }) hx hop ⟨Nat.le_add_left 1 _, by simp [Opcode.grows], rfl⟩ rfl
    (by simp) fun _ _ => ⟨rfl, rfl⟩

theorem dup (hop : x.opcode? = some .dup) (hroom : (v :: es).length < config.maxStackDepth) :
    Block config t ⟨ip, v :: es, f⟩ 1 ⟨ip + 1, v :: v :: es, f⟩ [] := by
  refine of_commit (e := { added := [v] }) hx hop ⟨Nat.le_add_left 1 _, fun _ => hroom, rfl⟩ rfl
    (by simp) fun m hs => ⟨rfl, ?_⟩
  rw [intent, hs.operand_eq]
  rfl

theorem test (hop : x.opcode? = some .test) :
    Block config t ⟨ip, v :: es, f⟩ 1 ⟨ip + 1, es, f.test v⟩ [] := by
  refine of_commit (e := { taken := 1, flags := some (f.test v) }) hx hop
    ⟨Nat.le_add_left 1 _, by simp [Opcode.grows], rfl⟩ rfl (by simp) fun m hs => ⟨rfl, ?_⟩
  rw [intent, hs.operand_eq, hs.flags_eq]
  rfl

/-- An operation that cannot fail. -/
theorem arith {o : Operator} (hop : x.opcode? = some (.arith o))
    (hd : (Opcode.arith o).divides = false) :
    Block config t ⟨ip, w :: v :: es, f⟩ 1 ⟨ip + 1, (o.eval? v w).getD 0 :: es, f⟩ [] := by
  refine of_commit (e := { taken := 2, added := [(o.eval? v w).getD 0] }) hx hop
    ⟨Nat.le_add_left 2 _, by simp [Opcode.grows], hd⟩ rfl (by simp) fun m hs => ⟨rfl, ?_⟩
  rw [intent, hs.operand_eq, hs.operand_eq]
  rfl

/-- A jump that is taken. -/
theorem jump (hop : x.opcode? = some op)
    (hj : op = .jump ∨ ∃ b, op = .jumpIf b ∧ f.holds b = true)
    (hv : x.immediate? address = some v) (hin : 0 ≤ v.toInt ∧ v.toInt < t.capacity) :
    Block config t ⟨ip, es, f⟩ 1 ⟨addressOf v, es, f⟩ [] := by
  have hjumps : ∀ m : Machine, m.Stands t ⟨ip, es, f⟩ → m.Jumps op := by
    intro m hs
    rwa [Jumps, hs.flags_eq]
  have hp : Point.Admits ⟨ip, es, f⟩ config op := by
    rcases hj with rfl | ⟨b, rfl, -⟩
    all_goals exact ⟨Nat.zero_le _, by simp [Opcode.grows], rfl⟩
  refine of_commit (e := { flow := .jump (addressOf v) }) hx hop hp rfl (by simp) fun m hs => ?_
  obtain ⟨-, hreach, hi, -, -, -⟩ := (hjumps m hs).plan
  rw [stray?_of_reach?_eq_some hreach, hi, Tape.stray?_eq_none_iff, (hs.faces hx).immediate_eq hv,
    hs.tape_eq]
  exact ⟨⟨by omega, hin.1, by omega⟩, rfl⟩

/-- A conditional jump that is not taken. -/
theorem jumpIf {b : Condition} (hop : x.opcode? = some (.jumpIf b)) (hb : f.holds b = false) :
    Block config t ⟨ip, es, f⟩ 1 ⟨ip + 5, es, f⟩ [] := by
  refine of_commit (e := {}) hx hop ⟨Nat.zero_le _, by simp [Opcode.grows], rfl⟩ rfl (by simp)
    fun m hs => ?_
  have hflag : m.flags.holds b = false := by rwa [hs.flags_eq]
  exact ⟨stray?_of_reach?_eq_none (by simp [reach?, hflag]), by simp [intent, hflag]⟩

theorem printInt (hop : x.opcode? = some .printInt) :
    Block config t ⟨ip, v :: es, f⟩ 1 ⟨ip + 1, es, f⟩ [.number v] := by
  have hp : Point.Admits ⟨ip, v :: es, f⟩ config .printInt :=
    ⟨Nat.le_add_left 1 _, by simp [Opcode.grows], rfl⟩
  refine of_print (e := { taken := 1 }) (r := .writeNumber v) hx hop hp rfl (by simp)
    (fun c => ⟨(), rfl⟩) fun m hs => ⟨rfl, ?_⟩
  rw [intent, hs.operand_eq]
  rfl

/-- The region that is printed holds the bytes of the text. -/
theorem printString {text : String} (hop : x.opcode? = some .printString) (hv : 0 ≤ v.toInt)
    (hw : w.toInt = (Utf8.encode text.toList).length) (hin : v.toInt + w.toInt ≤ t.capacity)
    (htext : t.Holds (addressOf v) (Utf8.encode text.toList)) :
    Block config t ⟨ip, w :: v :: es, f⟩ 1 ⟨ip + 1, es, f⟩ [.text text] := by
  have hlen : addressOf w = (Utf8.encode text.toList).length := by
    rw [addressOf, hw, Int.toNat_natCast]
  have hp : Point.Admits ⟨ip, w :: v :: es, f⟩ config .printString :=
    ⟨Nat.le_add_left 2 _, by simp [Opcode.grows], rfl⟩
  refine of_print (e := { taken := 2 }) (r := .writeText text) hx hop hp rfl (by simp)
    (fun c => ⟨(), rfl⟩) fun m hs => ?_
  have hreach : m.reach? .printString = some (v, w.toInt) := by
    rw [reach?, hs.operand_eq, hs.operand_eq]
    rfl
  refine ⟨?_, ?_⟩
  · rw [stray?_of_reach?_eq_some hreach, Tape.stray?_eq_none_iff, hs.tape_eq]
    omega
  · refine intent_printString ?_ ?_
    · rw [hs.operand_eq]
      exact hlen
    · rw [hs.tape_eq, hs.operand_eq]
      exact htext

end

end Block

/-- `HALT` stops the machine. -/
theorem step_of_halt {κ : Type} [Console κ] (hm : m.Conforms config) (hs : m.Stands t p)
    (hx : t.Holds p.ip (x.bytes address)) (hop : x.opcode? = some .halt) (c : κ) :
    (m.step c).1.status = .halted ∧ (m.step c).2 = c := by
  have hf := (hs.faces hx).fetches hop
  have ho := hs.objection?_eq_none hm hx hop ⟨Nat.zero_le _, by simp [Opcode.grows], rfl⟩ rfl
  rw [step_of_commit hm.withinLimits hs.status_eq hf ho rfl]
  exact ⟨rfl, rfl⟩

end Machine

end TapeMachine
