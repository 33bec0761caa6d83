import TapeMachine.Proofs.Blocks
import TapeMachine.Proofs.Comparisons

/-!
# What a step leaves alone

An instruction that does not fault exchanges entries at the top of the stack, writes in at most one
region of the tape and on at most one family of flags, and sets the instruction pointer.  Everything
else stays as it is.

* `Tape.Rewritten` compares two tapes inside and outside the region that has been written;
* `Machine.StepFrame` says for every instruction what it leaves of stack, tape, flags and
  instruction pointer, in terms of the form that its effects have (`Effect.Profile`).

Every step that does not fault keeps to its frame (`Machine.step_keeps_frame`).
-/

namespace TapeMachine

/-! ### Tapes -/

/-- The tape `t'` has `data` from `start` on, where `t` has as many other bytes, and is the same as
`t` everywhere else. -/
structure Tape.Rewritten (t t' : Tape) (start : Nat) (data : List UInt8) : Prop where
  fits : start + data.length ≤ t.capacity
  holds : t'.Holds start data
  elsewhere : ∀ i, i < start ∨ start + data.length ≤ i → t'.cells[i]? = t.cells[i]?

theorem Tape.rewritten_put {t : Tape} {start : Nat} {data : List UInt8}
    (h : start + data.length ≤ t.capacity) : t.Rewritten (t.put start data) start data where
  fits := h
  holds := by
    intro j hj
    unfold capacity at h
    rw [put, getElem?_overwrite, if_pos (by omega), Nat.add_sub_cancel_left]
  elsewhere := by
    intro i hi
    rw [put, getElem?_overwrite, if_neg (by omega)]

namespace Machine

variable {κ : Type} [Console κ] {config : Config} {m : Machine} {c : κ} {op : Opcode} {e : Effect}

/-! ### What a completed instruction leaves -/

theorem storeLine_of_le {start length : Nat} {line : String}
    (h : (Utf8.encode line.toList).length ≤ length) :
    storeLine start length line =
      { taken := 2
        added := [Int32.ofNat (Utf8.encode line.toList).length]
        written := some (start, Utf8.encode line.toList) } :=
  if_neg (Nat.not_lt.2 h)

theorem storeLine_of_lt {start length : Nat} {line : String}
    (h : length < (Utf8.encode line.toList).length) :
    storeLine start length line = { taken := 2, added := [lineTooLong] } :=
  if_pos h

theorem tape_commit_of_not_written (h : e.written = none) : (m.commit op e).tape = m.tape := by
  simp only [commit, h]

theorem tape_commit_of_written {start : Nat} {data : List UInt8}
    (h : e.written = some (start, data)) (hfit : start + data.length ≤ m.tape.capacity) :
    m.tape.Rewritten (m.commit op e).tape start data := by
  simp only [commit, h]
  exact Tape.rewritten_put hfit

/-- An instruction keeps the entries below those that it may exchange. -/
theorem entries_commit (he : (m.intent op).Allows e) :
    (m.commit op e).stack.entries = e.added ++ m.stack.entries.drop op.consumed := by
  rw [← (profile_of_allows he).taken_eq]
  rfl

/-- A completed instruction that asks the console has had an answer. -/
theorem Completes.answer {r : Request} {effect : r.Answer → Effect} (hm : m.WithinLimits)
    (h : m.Completes c op) (hi : m.intent op = .ask r effect) :
    ∃ a, (Console.respond r c).1 = .ok a ∧
      m.step c = (m.count.commit op (effect a), (Console.respond r c).2) := by
  obtain ⟨ho, -⟩ := h.exists_effect hm
  rcases hr : Console.respond r c with ⟨f | a, c'⟩
  · have hstep : m.step c = m.count.follow op c := step_of_fetches hm h.1 h.2.1
    rw [follow_of_refusal (m := m.count) ho hi hr] at hstep
    exact absurd (congrArg (·.1.status) hstep) (h.2.2 _)
  · exact ⟨a, rfl, step_of_answer hm h.1 h.2.1 ho hi hr⟩

/-- What a step leaves of a machine when it executes `op`, with `m'` the machine after the step. -/
structure StepFrame (m : Machine) (c : κ) (op : Opcode) (m' : Machine) : Prop where
  /-- The operands are there. -/
  operands : op.operandCount ≤ m.stack.depth
  /-- The lower entries of the stack stay.  As many as were exchanged at most are on top of them, or
  one if the instruction puts one there. -/
  stack : ∃ top, m'.stack.toList = m.stack.toList.take (m.stack.depth - op.consumed) ++ top ∧
    (op.grows = true → top.length = 1) ∧ (op.grows = false → top.length ≤ op.consumed)
  /-- `STORE` writes the bytes of the value at the address. -/
  tape_store : op = .store → 0 ≤ (m.operand 1).toInt ∧
    m.tape.Rewritten m'.tape (m.operand 1).toInt.toNat (m.operand 0).encode
  /-- `READ_STRING` writes the line at the address, if the region is long enough. -/
  tape_readString : op = .readString → 0 ≤ (m.operand 1).toInt ∧
    ∃ line : String, (Console.respond .readText c).1 = .ok line ∧
      ((Utf8.encode line.toList).length ≤ (m.operand 0).toInt →
        m.tape.Rewritten m'.tape (m.operand 1).toInt.toNat (Utf8.encode line.toList)) ∧
      ((m.operand 0).toInt < (Utf8.encode line.toList).length → m'.tape = m.tape)
  /-- Nothing else writes on the tape. -/
  tape : op ≠ .store → op ≠ .readString → m'.tape = m.tape
  /-- A family of flags is written by its own instruction only. -/
  flags : ∀ family : Family, op ≠ family.opcode → m'.flags.row family = m.flags.row family
  /-- An instruction that transfers control leads to an address on the tape. -/
  ip_transfer : ∀ a, m.destination? op = some a →
    0 ≤ a.toInt ∧ a.toInt < m.tape.capacity ∧ (m'.ip : Int) = a.toInt
  /-- `HALT` stays where it is, and every other instruction leads behind itself. -/
  ip : m.destination? op = none → m'.ip = if op = .halt then m.ip else m.ip + op.size

/-- The entries of a stack, the lower ones first. -/
theorem toList_stack_commit (he : (m.intent op).Allows e) :
    (m.commit op e).stack.toList =
      m.stack.toList.take (m.stack.depth - op.consumed) ++ e.added.reverse := by
  rw [Stack.toList, entries_commit he, List.reverse_append, List.reverse_drop, m.stack.depth_eq,
    Stack.toList]

/-- Where an instruction leads, once it has passed its checks. -/
theorem ip_commit (ho : m.objection? op = none) (he : (m.intent op).Allows e) :
    (∀ a, m.destination? op = some a →
      0 ≤ a.toInt ∧ a.toInt < m.tape.capacity ∧ ((m.commit op e).ip : Int) = a.toInt) ∧
    (m.destination? op = none →
      (m.commit op e).ip = if op = .halt then m.ip else m.ip + op.size) := by
  obtain ⟨-, -, hstray, -, -⟩ := objection?_eq_none_iff.1 ho
  have hflow := (profile_of_allows he).flow_eq
  refine ⟨fun a ha => ?_, fun hnone => ?_⟩
  · rw [stray?_of_reach?_eq_some (reach?_of_destination? ha), Tape.stray?_eq_none_iff] at hstray
    rw [ha] at hflow
    simp only [commit, hflow]
    unfold addressOf
    omega
  · rw [hnone] at hflow
    by_cases hop : op = .halt
    · rw [if_pos hop]
      simp only [hop, if_true] at hflow
      simp only [commit, hflow]
    · rw [if_neg hop]
      simp only [hop, if_false] at hflow
      simp only [commit, hflow]

/-- `READ_STRING` stores the line that it is given, or leaves the tape as it is. -/
theorem Completes.tape_readString (hm : m.WithinLimits) (h : m.Completes c .readString) :
    0 ≤ (m.operand 1).toInt ∧
      ∃ line : String, (Console.respond .readText c).1 = .ok line ∧
        ((Utf8.encode line.toList).length ≤ (m.operand 0).toInt →
          m.tape.Rewritten (m.step c).1.tape (m.operand 1).toInt.toNat
            (Utf8.encode line.toList)) ∧
        ((m.operand 0).toInt < (Utf8.encode line.toList).length →
          (m.step c).1.tape = m.tape) := by
  obtain ⟨ho, -⟩ := h.exists_effect hm
  obtain ⟨-, -, hstray, -, -⟩ := objection?_eq_none_iff.1 ho
  rw [stray?_of_reach?_eq_some rfl, Tape.stray?_eq_none_iff] at hstray
  obtain ⟨hlength, hstart, hend⟩ := hstray
  obtain ⟨line, hline, hstep⟩ := h.answer hm rfl
  refine ⟨hstart, line, hline, fun hfit => ?_, fun hlong => ?_⟩
  · rw [hstep, storeLine_of_le (by unfold addressOf; omega)]
    refine tape_commit_of_written (m := m.count) rfl ?_
    change (m.operand 1).toInt.toNat + _ ≤ m.tape.capacity
    omega
  · rw [hstep, storeLine_of_lt (by unfold addressOf; omega)]
    exact tape_commit_of_not_written rfl

/-- **A completed instruction changes what belongs to it**, and leaves the rest alone. -/
theorem Completes.stepFrame (hm : m.WithinLimits) (h : m.Completes c op) :
    m.StepFrame c op (m.step c).1 := by
  obtain ⟨ho, e, he, hstep⟩ := h.exists_effect hm
  obtain ⟨-, hunder, hstray, -, -⟩ := objection?_eq_none_iff.1 ho
  have hprofile := profile_of_allows he
  obtain ⟨htransfer, hnext⟩ := ip_commit (m := m.count) ho he
  refine
    { operands := underflow?_eq_none_iff.1 hunder
      stack := ⟨e.added.reverse, ?_, ?_, ?_⟩
      tape_store := ?_
      tape_readString := ?_
      tape := ?_
      flags := ?_
      ip_transfer := ?_
      ip := ?_ }
  · rw [hstep]
    exact toList_stack_commit (m := m.count) he
  · rw [List.length_reverse]
    exact hprofile.added_of_grows
  · rw [List.length_reverse]
    exact hprofile.added_le
  · rintro rfl
    rw [stray?_of_reach?_eq_some rfl, Tape.stray?_eq_none_iff] at hstray
    obtain ⟨-, hstart, hend⟩ := hstray
    cases he
    rw [hstep]
    refine ⟨hstart, tape_commit_of_written (m := m.count) rfl ?_⟩
    change _ ≤ m.tape.capacity
    rw [Word.length_encode]
    omega
  · rintro rfl
    exact h.tape_readString hm
  · intro hstore hread
    rw [hstep]
    exact tape_commit_of_not_written (m := m.count) (hprofile.written_eq hstore hread)
  · intro family hne
    rw [hstep, row_commit (m := m.count) he, if_neg hne]
    rfl
  · rw [hstep]
    exact htransfer
  · rw [hstep]
    exact hnext

/-- **What a step leaves alone.**  A step of a reachable running machine that does not fault halts
at the end of the tape and changes nothing but the status, or it executes an instruction and changes
no more than `StepFrame` allows that instruction. -/
theorem step_keeps_frame (h : Reachable config m) (hs : m.status = .running) (c : κ)
    (hok : ∀ f, (m.step c).1.status ≠ .faulted f) :
    (m.ip = m.tape.capacity → (m.step c).1 = { m with status := .halted }) ∧
      (m.ip ≠ m.tape.capacity → ∃ op, m.Fetches op ∧ m.StepFrame c op (m.step c).1) := by
  have hm := h.conforms.withinLimits
  refine ⟨fun hend => ?_, fun hne => ?_⟩
  · rw [step_of_runsOff hs hend]
  · have hlt : m.ip < m.tape.capacity := Nat.lt_of_le_of_ne hm.ip_le hne
    cases hb : Opcode.ofByte? (m.tape.cell m.ip) with
    | none =>
      rw [step_of_unknown hs hlt hb] at hok
      exact absurd rfl (hok _)
    | some op =>
      have hcompletes : m.Completes c op := ⟨hs, ⟨hlt, hb⟩, hok⟩
      exact ⟨op, hcompletes.2.1, hcompletes.stepFrame hm⟩

/-- A machine that is about to store -2 at the address 16, with a 7 below the operands. -/
def storingMachine : Machine :=
  (stepN 3 ((new { tapeCapacity := 20, maxStackDepth := 3 }).loadOrKeep
    #[0x01, 7, 0, 0, 0, 0x01, 16, 0, 0, 0, 0x01, 0xfe, 0xff, 0xff, 0xff, 0x05])
    (Script.ofLines [])).1

/-- The value is stored at the end of the tape, and the 7 stays where it is. -/
theorem step_keeps_frame_store :
    Reachable { tapeCapacity := 20, maxStackDepth := 3 } storingMachine ∧
      storingMachine.status = .running ∧ storingMachine.stack.toList = [7, 16, -2] ∧
      (∀ f, (storingMachine.step (Script.ofLines [])).1.status ≠ .faulted f) ∧
      storingMachine.StepFrame (Script.ofLines []) .store
        (storingMachine.step (Script.ofLines [])).1 ∧
      storingMachine.tape.Rewritten (storingMachine.step (Script.ofLines [])).1.tape 16
        [0xfe, 0xff, 0xff, 0xff] ∧
      (storingMachine.step (Script.ofLines [])).1.stack.toList.take 1 = [7] := by
  have h : Reachable { tapeCapacity := 20, maxStackDepth := 3 } storingMachine :=
    (Reachable.new.load _).stepN _ 3
  have hs : storingMachine.status = .running := by rfl
  have hok : ∀ f, (storingMachine.step (Script.ofLines [])).1.status ≠ .faulted f := by
    intro f hf
    cases hf
  have hstore : storingMachine.Fetches .store := ⟨by decide, by rfl⟩
  obtain ⟨op, hf, hframe⟩ :=
    (step_keeps_frame h hs (Script.ofLines []) hok).2 (Nat.ne_of_lt hstore.1)
  cases hf.unique hstore
  obtain ⟨top, hstack, -⟩ := hframe.stack
  refine ⟨h, hs, by rfl, hok, hframe, (hframe.tape_store rfl).2, ?_⟩
  rw [hstack]
  rfl

end Machine

end TapeMachine
