import TapeMachine.Proofs.Execution

/-!
# What one step can do

`Machine.Transition` lists the ways in which a step of a running machine can go, each with the
conditions under which it goes that way.  A step of a machine within its limits is always one of
them (`Machine.transition_step`), and every invariant of runs is derived from that list.

The instructions themselves are summed up in what their effects have in common (`Effect.Profile`,
`Machine.profile_of_allows`).  `Opcode.consumed` counts the entries that an instruction may
exchange, and `Machine.destination?` is the word that tells where it leads, if it transfers control.
-/

namespace TapeMachine

/-- An effect that a plan may come to, whatever the console answers. -/
def Plan.Allows : Plan → Effect → Prop
  | .commit e, e' => e' = e
  | .ask r effect, e' => ∃ a : r.Answer, e' = effect a

namespace Machine

/-- The opcode at the instruction pointer is `op`. -/
def Fetches (m : Machine) (op : Opcode) : Prop :=
  m.ip < m.tape.capacity ∧ Opcode.ofByte? (m.tape.cell m.ip) = some op

variable {κ : Type} [Console κ]

/-- The ways in which a step of a running machine can go. -/
inductive Transition (m : Machine) (c : κ) : Machine × κ → Prop
  /-- The instruction pointer is behind the tape. -/
  | runsOff (h : m.ip = m.tape.capacity) : Transition m c ({ m with status := .halted }, c)
  /-- The byte at the instruction pointer is no opcode. -/
  | unknown (h : m.ip < m.tape.capacity) (hb : Opcode.ofByte? (m.tape.cell m.ip) = none) :
      Transition m c (m.fail (.unknownOpcode (m.tape.cell m.ip) m.ip), c)
  /-- There is an objection to the instruction. -/
  | objected {op : Opcode} {e : Fault} (hf : m.Fetches op) (ho : m.objection? op = some e) :
      Transition m c (m.count.fail e, c)
  /-- The instruction does what it intends. -/
  | committed {op : Opcode} {e : Effect} (hf : m.Fetches op) (ho : m.objection? op = none)
      (hi : m.intent op = .commit e) : Transition m c (m.count.commit op e, c)
  /-- The console answers, and the instruction does what the answer calls for. -/
  | answered {op : Opcode} {r : Request} {effect : r.Answer → Effect} {a : r.Answer} {c' : κ}
      (hf : m.Fetches op) (ho : m.objection? op = none) (hi : m.intent op = .ask r effect)
      (hr : Console.respond r c = (.ok a, c')) :
      Transition m c (m.count.commit op (effect a), c')
  /-- The console refuses. -/
  | refused {op : Opcode} {r : Request} {effect : r.Answer → Effect} {e : ConsoleError} {c' : κ}
      (hf : m.Fetches op) (ho : m.objection? op = none) (hi : m.intent op = .ask r effect)
      (hr : Console.respond r c = (.error e, c')) : Transition m c (m.count.fail e.toFault, c')

variable {m : Machine} {op : Opcode} {c : κ} {e : Effect}

theorem fetch_of_eq (h : m.ip = m.tape.capacity) : m.fetch = .ok none := if_pos h

theorem fetch_of_lt (h : m.ip < m.tape.capacity) :
    m.fetch = match Opcode.ofByte? (m.tape.cell m.ip) with
      | some op => .ok (some op)
      | none => .error (.unknownOpcode (m.tape.cell m.ip) m.ip) := by
  rw [fetch, if_neg (by omega), Tape.readByte_of_lt h]
  rfl

theorem Fetches.fetch_eq (h : m.Fetches op) : m.fetch = .ok (some op) := by
  rw [fetch_of_lt h.1, h.2]

/-- The opcode that is fetched from a machine within its limits is the one at its instruction
pointer. -/
theorem fetches_iff (hm : m.WithinLimits) : m.Fetches op ↔ m.fetch = .ok (some op) := by
  refine ⟨Fetches.fetch_eq, fun h => ?_⟩
  rcases Nat.lt_or_eq_of_le hm.ip_le with hlt | heq
  · rw [fetch_of_lt hlt] at h
    cases hb : Opcode.ofByte? (m.tape.cell m.ip) with
    | none => rw [hb] at h; cases h
    | some op' => rw [hb] at h; cases h; exact ⟨hlt, hb⟩
  · rw [fetch_of_eq heq] at h
    cases h

theorem step_of_runsOff (hs : m.status = .running) (h : m.ip = m.tape.capacity) :
    m.step c = ({ m with status := .halted }, c) := by
  simp only [step, hs, Status.isRunning, fetch_of_eq h, if_true]

theorem step_of_unknown (hs : m.status = .running) (h : m.ip < m.tape.capacity)
    (hb : Opcode.ofByte? (m.tape.cell m.ip) = none) :
    m.step c = (m.fail (.unknownOpcode (m.tape.cell m.ip) m.ip), c) := by
  simp only [step, hs, Status.isRunning, fetch_of_lt h, hb, if_true]

/-- A step executes the instruction that is fetched. -/
theorem step_of_fetches (hm : m.WithinLimits) (hs : m.status = .running) (hf : m.Fetches op) :
    m.step c = m.count.follow op c := by
  rw [← execute_eq_follow hm]
  simp only [step, hs, Status.isRunning, hf.fetch_eq, if_true]

theorem step_of_commit (hm : m.WithinLimits) (hs : m.status = .running) (hf : m.Fetches op)
    (ho : m.objection? op = none) (hi : m.intent op = .commit e) :
    m.step c = (m.count.commit op e, c) := by
  rw [step_of_fetches hm hs hf, follow_of_commit (m := m.count) ho hi]

theorem step_of_answer {r : Request} {effect : r.Answer → Effect} {a : r.Answer} {c' : κ}
    (hm : m.WithinLimits) (hs : m.status = .running) (hf : m.Fetches op)
    (ho : m.objection? op = none) (hi : m.intent op = .ask r effect)
    (hr : Console.respond r c = (.ok a, c')) : m.step c = (m.count.commit op (effect a), c') := by
  rw [step_of_fetches hm hs hf, follow_of_answer (m := m.count) ho hi hr]

theorem step_of_objection {f : Fault} (hm : m.WithinLimits) (hs : m.status = .running)
    (hf : m.Fetches op) (ho : m.objection? op = some f) : m.step c = (m.count.fail f, c) := by
  rw [step_of_fetches hm hs hf, follow_of_objection (m := m.count) ho]

/-- **A step goes one of the listed ways.** -/
theorem transition_step (hm : m.WithinLimits) (hs : m.status = .running) (c : κ) :
    Transition m c (m.step c) := by
  rcases Nat.eq_or_lt_of_le hm.ip_le with heq | hlt
  · rw [step_of_runsOff hs heq]
    exact .runsOff heq
  cases hb : Opcode.ofByte? (m.tape.cell m.ip) with
  | none =>
    rw [step_of_unknown hs hlt hb]
    exact .unknown hlt hb
  | some op =>
    have hf : m.Fetches op := ⟨hlt, hb⟩
    rw [step_of_fetches hm hs hf]
    cases ho : m.objection? op with
    | some e =>
      rw [follow_of_objection (m := m.count) ho]
      exact .objected hf ho
    | none =>
      cases hi : m.intent op with
      | commit e =>
        rw [follow_of_commit (m := m.count) ho hi]
        exact .committed hf ho hi
      | ask r effect =>
        rcases hr : Console.respond r c with ⟨e | a, c'⟩
        · rw [follow_of_refusal (m := m.count) ho hi hr]
          exact .refused hf ho hi hr
        · rw [follow_of_answer (m := m.count) ho hi hr]
          exact .answered hf ho hi hr

/-! ### What effects have in common -/

/-- The word that tells where an instruction leads, if it transfers control. -/
def destination? (m : Machine) (op : Opcode) : Option Word :=
  match op with
  | .jump => some m.immediate
  | .jumpIf b => if m.flags.holds b then some m.immediate else none
  | .call | .ret => some (m.operand 0)
  | _ => none

/-- Where an instruction leads is an address that it has been checked for. -/
theorem reach?_of_destination? {a : Word} (h : m.destination? op = some a) :
    m.reach? op = some (a, 1) := by
  cases op with
  | jump | call | ret =>
    cases h
    rfl
  | jumpIf b =>
    simp only [destination?] at h
    split at h
    · rename_i hb
      cases h
      simp only [reach?, hb, if_true]
    · cases h
  | _ => cases h

end Machine

/-- Number of entries at the top of the stack that an instruction may exchange: its operands, or
none if it only puts an entry on top of them. -/
def Opcode.consumed (op : Opcode) : Nat := if op.grows then 0 else op.operandCount

theorem Opcode.consumed_le (op : Opcode) : op.consumed ≤ op.operandCount := by
  unfold consumed
  split
  · exact Nat.zero_le _
  · exact Nat.le_refl _

/-- The form of the effect of an instruction, apart from what it computes. -/
structure Effect.Profile (e : Effect) (m : Machine) (op : Opcode) : Prop where
  taken_eq : e.taken = op.consumed
  added_of_grows : op.grows = true → e.added.length = 1
  added_le : op.grows = false → e.added.length ≤ op.consumed
  written_eq : op ≠ .store → op ≠ .readString → e.written = none
  flow_eq : e.flow = match m.destination? op with
    | some a => .jump (Machine.addressOf a)
    | none => if op = .halt then .halt else .next

namespace Machine

variable {m : Machine} {op : Opcode} {e : Effect}

/-- The effects that an instruction can have are all of the same form. -/
theorem profile_of_allows (h : (m.intent op).Allows e) : e.Profile m op := by
  cases op with
  | jumpIf b =>
    cases hb : m.flags.holds b
    all_goals
      simp only [intent, hb, if_true, Bool.false_eq_true, if_false] at h
      cases h
      refine ⟨rfl, by simp [Opcode.grows], fun _ => Nat.zero_le _, fun _ _ => rfl, ?_⟩
      simp [destination?, hb]
  | readString =>
    obtain ⟨line, rfl⟩ := h
    simp only [storeLine]
    split
    all_goals
      exact ⟨rfl, by simp [Opcode.grows], fun _ => Nat.le_succ 1, fun _ hne => absurd rfl hne, rfl⟩
  | printInt | printString | readInt =>
    obtain ⟨a, rfl⟩ := h
    exact ⟨rfl, by simp [Opcode.grows], by simp [Opcode.grows], fun _ _ => rfl, rfl⟩
  | store =>
    cases h
    exact ⟨rfl, by simp [Opcode.grows], by simp, fun hne => absurd rfl hne, rfl⟩
  | _ =>
    cases h
    exact ⟨rfl, by simp [Opcode.grows],
      by simp [Opcode.grows, Opcode.consumed, Opcode.operandCount], fun _ _ => rfl, rfl⟩

/-- An instruction takes off no more entries than it has operands, and it puts back at most as many
as it takes, unless it is one that makes the stack grow by one. -/
theorem stack_of_allows (h : (m.intent op).Allows e) :
    e.taken ≤ op.operandCount ∧
      (e.added.length ≤ e.taken ∨ op.grows = true ∧ e.taken = 0 ∧ e.added.length = 1) := by
  have hprofile := profile_of_allows h
  rw [hprofile.taken_eq]
  refine ⟨op.consumed_le, ?_⟩
  cases hg : op.grows with
  | false => exact .inl (hprofile.added_le hg)
  | true =>
    have hnone : op.consumed = 0 := by rw [Opcode.consumed, if_pos hg]
    exact .inr ⟨rfl, hnone, hprofile.added_of_grows hg⟩

/-- An instruction leads to the next one, or to the address that it has been checked for, or it
halts. -/
theorem flow_of_allows (h : (m.intent op).Allows e) :
    e.flow = .next ∨ (∃ a, m.reach? op = some (a, 1) ∧ e.flow = .jump (addressOf a)) ∨
      op = .halt ∧ e.flow = .halt := by
  have hflow := (profile_of_allows h).flow_eq
  cases hd : m.destination? op with
  | some a =>
    rw [hd] at hflow
    exact .inr (.inl ⟨a, reach?_of_destination? hd, hflow⟩)
  | none =>
    rw [hd] at hflow
    by_cases hop : op = .halt
    · exact .inr (.inr ⟨hop, hflow.trans (if_pos hop)⟩)
    · exact .inl (hflow.trans (if_neg hop))

end Machine

end TapeMachine
