import TapeMachine.Proofs.Reachable

/-!
# How a step faults

A step that faults changes nothing but the status and the count of steps
(`Machine.step_fault_keeps`), although the instructions work in place.

Which fault it is depends on the state alone, or on the console when there is nothing else to
object to.  `Machine.step_fault_kinds` gives the exact conditions, in the order in which they are
looked at.
-/

namespace TapeMachine

namespace ConsoleError

variable {e : ConsoleError}

theorem kind_toFault (e : ConsoleError) :
    e.toFault.kind = .malformedInput ∨ e.toFault.kind = .consoleFailure := by
  cases e <;> simp [toFault, Fault.kind]

theorem kind_toFault_eq_malformedInput_iff :
    e.toFault.kind = .malformedInput ↔ ∃ input expected, e = .malformed input expected := by
  cases e <;> simp [toFault, Fault.kind]

theorem kind_toFault_eq_consoleFailure_iff :
    e.toFault.kind = .consoleFailure ↔ ∀ input expected, e ≠ .malformed input expected := by
  cases e <;> simp [toFault, Fault.kind]

end ConsoleError

namespace Machine

variable {config : Config} {m : Machine} {op : Opcode} {κ : Type} [Console κ] {c : κ}
  {k : Fault.Kind}

/-! ### A fault keeps the machine -/

theorem kind_of_stray? {e : Fault} (h : m.stray? op = some e) : e.kind = .bounds := by
  obtain ⟨⟨a, n⟩, -, hs⟩ := Option.bind_eq_some_iff.1 h
  obtain ⟨address, width, rfl⟩ := Tape.eq_outside_of_stray? hs
  rfl

theorem kind_ne_unknownOpcode_of_objection {e : Fault} (h : m.objection? op = some e) :
    e.kind ≠ .unknownOpcode := by
  intro hk
  simp only [objection?, Option.or_eq_some_iff] at h
  rcases h with h | ⟨-, h | ⟨-, h | ⟨-, h | ⟨-, h⟩⟩⟩⟩
  · cases (Option.ite_none_right_eq_some.1 h).2
    cases hk
  · cases (Option.ite_none_right_eq_some.1 h).2
    cases hk
  · rw [kind_of_stray? h] at hk
    cases hk
  · cases (Option.ite_none_right_eq_some.1 h).2
    cases hk
  · cases (Option.ite_none_right_eq_some.1 h).2
    cases hk

/-- Carrying out an effect does not fault. -/
theorem status_ne_running_of_commit {e : Effect} {f : Fault}
    (h : (m.commit op e).status = .faulted f) : m.status ≠ .running := by
  intro hs
  simp only [commit, hs] at h
  split at h <;> cases h

/-- **A fault keeps the machine.**  If a step of a reachable running machine faults, tape, stack,
flags and instruction pointer are as they were before.  The step is counted, unless it was the
opcode that was unknown. -/
theorem step_fault_keeps (h : Reachable config m) (hs : m.status = .running) (c : κ) {e : Fault}
    (hf : (m.step c).1.status = .faulted e) :
    (m.step c).1 =
      { m with
        status := .faulted e
        steps := if e.kind = .unknownOpcode then m.steps else m.steps + 1 } := by
  have ht := transition_step h.conforms.withinLimits hs c
  generalize m.step c = r at hf ht ⊢
  cases ht with
  | runsOff => cases hf
  | unknown => cases hf; rfl
  | objected _ ho =>
    cases hf
    rw [if_neg (kind_ne_unknownOpcode_of_objection ho)]
    rfl
  | committed => exact (status_ne_running_of_commit hf hs).elim
  | answered => exact (status_ne_running_of_commit hf hs).elim
  | @refused _ _ _ e =>
    cases hf
    cases e <;> rfl

/-- A line that is no number stops the read of one.  The entry below stays on the stack. -/
theorem step_fault_keeps_malformed_line :
    ∃ m : Machine, Reachable { tapeCapacity := 6, maxStackDepth := 2 } m ∧
      m.status = .running ∧ m.stack.entry 0 = 7 ∧
      (m.step (Script.ofLines ["x"])).1 =
        { m with
          status := .faulted (ConsoleError.malformed "x" "a signed 32-bit integer").toFault
          steps := m.steps + 1 } := by
  have h : Reachable { tapeCapacity := 6, maxStackDepth := 2 } _ :=
    .step (Script.ofLines []) (.load #[0x01, 7, 0, 0, 0, 0x17] .new)
  refine ⟨_, h, by rfl, by rfl, ?_⟩
  exact step_fault_keeps (e := (ConsoleError.malformed "x" "a signed 32-bit integer").toFault) h
    (by rfl) (Script.ofLines ["x"]) (by rfl)

/-! ### The reasons for a fault -/

variable (m op c k)

/-- The next step faults, and the fault is of category `k`. -/
def FaultsWith : Prop := ∃ e, (m.step c).1.status = .faulted e ∧ e.kind = k

/-- What an instruction that asks the console asks for. -/
def request? : Option Request :=
  match op with
  | .printInt => some (.writeNumber (m.operand 0))
  | .printString =>
    some (.writeText (String.ofList (Utf8.decodeLossy
      (m.tape.slice (addressOf (m.operand 1)) (addressOf (m.operand 0))))))
  | .readInt => some .readNumber
  | .readString => some .readText
  | _ => none

/-- An instruction without an immediate is given an address that it cannot use. -/
def Astray : Prop :=
  match op with
  | .load => ¬ (0 ≤ (m.operand 0).toInt ∧ (m.operand 0).toInt ≤ m.tape.capacity - 4)
  | .store => ¬ (0 ≤ (m.operand 1).toInt ∧ (m.operand 1).toInt ≤ m.tape.capacity - 4)
  | .call | .ret => ¬ (0 ≤ (m.operand 0).toInt ∧ (m.operand 0).toInt < m.tape.capacity)
  | .printString | .readString =>
    (m.operand 1).toInt < 0 ∨ (m.operand 0).toInt < 0 ∨
      m.tape.capacity < (m.operand 1).toInt + (m.operand 0).toInt
  | _ => False

/-- An instruction is a jump that is taken. -/
def Jumps : Prop := op = .jump ∨ ∃ b, op = .jumpIf b ∧ m.flags.holds b = true

variable {m op c k}

theorem request?_of_intent {r : Request} {effect : r.Answer → Effect}
    (h : m.intent op = .ask r effect) : m.request? op = some r := by
  cases op with
  | jumpIf b =>
    simp only [intent] at h
    split at h <;> cases h
  | _ => cases h <;> rfl

theorem exists_intent_of_request? {r : Request} (h : m.request? op = some r) :
    ∃ effect : r.Answer → Effect, m.intent op = .ask r effect := by
  cases op with
  | printInt | printString | readInt | readString => cases h; exact ⟨_, rfl⟩
  | _ => cases h

/-- The category of a fault over an objection is that of the objection. -/
theorem faultsWith_of_objection {e : Fault} (hm : m.WithinLimits) (hs : m.status = .running)
    (hf : m.Fetches op) (ho : m.objection? op = some e) : m.FaultsWith c k ↔ k = e.kind := by
  rw [FaultsWith, step_of_fetches hm hs hf, follow_of_objection (m := m.count) ho]
  simp [fail, eq_comm]

/-- Where there is no objection, only the console can make the step fault. -/
theorem faultsWith_of_objection_eq_none (hm : m.WithinLimits) (hs : m.status = .running)
    (hf : m.Fetches op) (ho : m.objection? op = none) :
    m.FaultsWith c k ↔
      ∃ r e, m.request? op = some r ∧ (Console.respond r c).1 = .error e ∧ e.toFault.kind = k := by
  rw [FaultsWith, step_of_fetches hm hs hf]
  cases hi : m.count.intent op with
  | commit e =>
    rw [follow_of_commit (m := m.count) ho hi]
    constructor
    · rintro ⟨f, hf, -⟩
      exact (status_ne_running_of_commit hf hs).elim
    · rintro ⟨r, e, hr, -⟩
      obtain ⟨effect, hi'⟩ := exists_intent_of_request? hr
      cases hi.symm.trans hi'
  | ask r effect =>
    have hreq : m.request? op = some r := request?_of_intent hi
    rcases hr : Console.respond r c with ⟨e | a, c'⟩
    · rw [follow_of_refusal (m := m.count) ho hi hr]
      simp [fail, hreq, hr]
    · rw [follow_of_answer (m := m.count) ho hi hr]
      constructor
      · rintro ⟨f, hf, -⟩
        exact (status_ne_running_of_commit hf hs).elim
      · simp [hreq, hr]

theorem faultsWith_unknownOpcode_iff (hm : m.WithinLimits) (hs : m.status = .running)
    (hip : m.ip < m.tape.capacity) :
    m.FaultsWith c .unknownOpcode ↔ Opcode.ofByte? (m.tape.cell m.ip) = none := by
  cases hb : Opcode.ofByte? (m.tape.cell m.ip) with
  | none =>
    simp only [FaultsWith, step_of_unknown hs hip hb, iff_true]
    exact ⟨_, rfl, rfl⟩
  | some op =>
    simp only [reduceCtorEq, iff_false]
    cases ho : m.objection? op with
    | some e =>
      rw [faultsWith_of_objection hm hs ⟨hip, hb⟩ ho]
      exact (kind_ne_unknownOpcode_of_objection ho).symm
    | none =>
      rw [faultsWith_of_objection_eq_none hm hs ⟨hip, hb⟩ ho]
      rintro ⟨r, e, -, -, he⟩
      cases e <;> cases he

/-! ### The checks in plain words -/

theorem stray?_ne_none_iff_astray (hi : op.hasImmediate = false) :
    m.stray? op ≠ none ↔ m.Astray op := by
  cases op with
  | load | store | call | ret | printString | readString =>
    rw [stray?_of_reach?_eq_some rfl, Ne, Tape.stray?_eq_none_iff]
    simp only [Astray, Word.width]
    omega
  | push | const | jump | jumpIf => cases hi
  | _ =>
    rw [stray?_of_reach?_eq_none rfl]
    simp [Astray]

theorem stray?_ne_none_iff_jumps (hi : op.hasImmediate = true) :
    m.stray? op ≠ none ↔
      m.Jumps op ∧ ¬ (0 ≤ m.immediate.toInt ∧ m.immediate.toInt < m.tape.capacity) := by
  have hone : m.tape.stray? m.immediate 1 ≠ none ↔
      ¬ (0 ≤ m.immediate.toInt ∧ m.immediate.toInt < m.tape.capacity) := by
    rw [Ne, Tape.stray?_eq_none_iff]
    omega
  cases op with
  | jump =>
    rw [stray?_of_reach?_eq_some rfl, hone]
    simp [Jumps]
  | jumpIf b =>
    cases hb : m.flags.holds b with
    | false =>
      rw [stray?_of_reach?_eq_none (by simp [reach?, hb])]
      simp [Jumps, hb]
    | true =>
      rw [stray?_of_reach?_eq_some (by simp only [reach?, hb, if_true]; rfl), hone]
      simp [Jumps, hb]
  | push | const =>
    rw [stray?_of_reach?_eq_none rfl]
    simp [Jumps]
  | _ => cases hi

theorem divides_iff : op.divides = true ↔ op = .arith .div ∨ op = .arith .mod := by
  cases op with
  | arith o => cases o <;> simp [Opcode.divides]
  | _ => simp [Opcode.divides]

theorem grows_iff_of_hasImmediate (hi : op.hasImmediate = true) :
    op.grows = true ↔ op = .push ∨ op = .const := by
  cases op <;> simp_all [Opcode.hasImmediate, Opcode.grows]

theorem grows_iff_of_not_hasImmediate (hi : op.hasImmediate = false) :
    op.grows = true ↔ op = .dup ∨ op = .readInt := by
  cases op <;> simp_all [Opcode.hasImmediate, Opcode.grows]

/-- An instruction with an immediate needs no operand, does not divide, does not ask the console,
and does not both put an entry on the stack and jump. -/
theorem checks_of_hasImmediate (m : Machine) (hi : op.hasImmediate = true) :
    op.operandCount = 0 ∧ op.divides = false ∧ m.request? op = none ∧
      (op.grows = true → m.stray? op = none) := by
  cases op with
  | push | const => exact ⟨rfl, rfl, rfl, fun _ => rfl⟩
  | jump | jumpIf => exact ⟨rfl, rfl, rfl, fun h => by cases h⟩
  | _ => cases hi

theorem fault_kinds_of_hasImmediate (hm : m.WithinLimits) (hs : m.status = .running)
    (hf : m.Fetches op) (hi : op.hasImmediate = true) (hfit : m.ip + op.size ≤ m.tape.capacity) :
    (m.FaultsWith c .stackOverflow ↔ op.grows = true ∧ m.stack.limit ≤ m.stack.depth) ∧
      (m.FaultsWith c .bounds ↔ m.stray? op ≠ none) ∧
      ∀ k, m.FaultsWith c k → k = .stackOverflow ∨ k = .bounds := by
  obtain ⟨hn, hd, hr, hg⟩ := checks_of_hasImmediate m hi
  have ht : m.truncated? op = none := truncated?_eq_none_iff.2 fun _ => hfit
  have hu : op.operandCount ≤ m.stack.depth := by omega
  have hz : m.zeroDivisor? op = none := zeroDivisor?_eq_none_iff.2 (by simp [hd])
  cases hst : m.stray? op with
  | some e =>
    have hk : ∀ k, m.FaultsWith c k ↔ k = .bounds := fun k => by
      rw [faultsWith_of_objection hm hs hf (objection?_of_stray ht hu hst), kind_of_stray? hst]
    have : op.grows = false := by
      cases h : op.grows with
      | false => rfl
      | true => rw [hg h] at hst; cases hst
    simp [hk, this]
  | none =>
    by_cases hfull : op.grows = true ∧ m.stack.limit ≤ m.stack.depth
    · have ho := objection?_of_overflow ht hu hst hz (overflow?_of_le hfull.1 hfull.2)
      have hk : ∀ k, m.FaultsWith c k ↔ k = .stackOverflow := fun k =>
        faultsWith_of_objection hm hs hf ho
      simp [hk, hfull]
    · have ho : m.objection? op = none := objection?_eq_none_iff.2 ⟨ht,
        underflow?_eq_none_iff.2 hu, hst, hz,
        overflow?_eq_none_iff.2 fun h => Nat.not_le.1 fun hle => hfull ⟨h, hle⟩⟩
      have hk : ∀ k, ¬ m.FaultsWith c k := fun k => by
        simp [faultsWith_of_objection_eq_none hm hs hf ho, hr]
      simp [hk, hfull]

theorem fault_kinds_of_not_hasImmediate (hm : m.WithinLimits) (hs : m.status = .running)
    (hf : m.Fetches op) (hi : op.hasImmediate = false) :
    (m.FaultsWith c .stackUnderflow ↔ m.stack.depth < op.operandCount) ∧
      (op.operandCount ≤ m.stack.depth →
        (m.FaultsWith c .bounds ↔ m.stray? op ≠ none) ∧
        (m.stray? op = none →
          (m.FaultsWith c .divisionByZero ↔ op.divides = true ∧ m.operand 0 = 0) ∧
          (m.FaultsWith c .stackOverflow ↔ op.grows = true ∧ m.stack.limit ≤ m.stack.depth) ∧
          (¬ (op.divides = true ∧ m.operand 0 = 0) →
            ¬ (op.grows = true ∧ m.stack.limit ≤ m.stack.depth) → ∀ k, m.FaultsWith c k ↔
              ∃ r e, m.request? op = some r ∧ (Console.respond r c).1 = .error e ∧
                e.toFault.kind = k))) := by
  have ht : m.truncated? op = none := truncated?_eq_none_iff.2 (by simp [hi])
  -- the cases follow the order of the checks, and each leaves one category of fault
  by_cases hu : m.stack.depth < op.operandCount
  · have hk : ∀ k, m.FaultsWith c k ↔ k = .stackUnderflow := fun k =>
      faultsWith_of_objection hm hs hf (objection?_of_underflow ht hu)
    exact ⟨by simp [hk, hu], fun h => absurd hu (Nat.not_lt.2 h)⟩
  have hn := Nat.not_lt.1 hu
  cases hst : m.stray? op with
  | some e =>
    have hk : ∀ k, m.FaultsWith c k ↔ k = .bounds := fun k => by
      rw [faultsWith_of_objection hm hs hf (objection?_of_stray ht hn hst), kind_of_stray? hst]
    simp [hk, hu]
  | none =>
    by_cases hz : op.divides = true ∧ m.operand 0 = 0
    · have ho := objection?_of_zeroDivisor ht hn hst (zeroDivisor?_of_eq hz.1 hz.2)
      have hk : ∀ k, m.FaultsWith c k ↔ k = .divisionByZero := fun k =>
        faultsWith_of_objection hm hs hf ho
      -- what divides does not make the stack grow
      have hg : op.grows = false := by
        rcases divides_iff.1 hz.1 with rfl | rfl <;> rfl
      simp [hk, hu, hz, hg]
    have hz' : m.zeroDivisor? op = none := zeroDivisor?_eq_none_iff.2 fun hd h0 => hz ⟨hd, h0⟩
    by_cases hfull : op.grows = true ∧ m.stack.limit ≤ m.stack.depth
    · have ho := objection?_of_overflow ht hn hst hz' (overflow?_of_le hfull.1 hfull.2)
      have hk : ∀ k, m.FaultsWith c k ↔ k = .stackOverflow := fun k =>
        faultsWith_of_objection hm hs hf ho
      simp [hk, hu, hz, hfull]
    · have ho : m.objection? op = none := objection?_eq_none_iff.2 ⟨ht,
        underflow?_eq_none_iff.2 hn, hst, hz',
        overflow?_eq_none_iff.2 fun h => Nat.not_le.1 fun hle => hfull ⟨h, hle⟩⟩
      have hk : ∀ k, m.FaultsWith c k ↔ ∃ r e, m.request? op = some r ∧
          (Console.respond r c).1 = .error e ∧ e.toFault.kind = k := fun k =>
        faultsWith_of_objection_eq_none hm hs hf ho
      -- a refusal of the console is of none of the categories above
      have hc : ∀ k, m.FaultsWith c k → k = .malformedInput ∨ k = .consoleFailure := by
        intro k h
        obtain ⟨r, e, -, -, rfl⟩ := (hk k).1 h
        exact e.kind_toFault
      have hne : ¬ m.FaultsWith c .stackUnderflow ∧ ¬ m.FaultsWith c .bounds ∧
          ¬ m.FaultsWith c .divisionByZero ∧ ¬ m.FaultsWith c .stackOverflow :=
        ⟨fun h => by simpa using hc _ h, fun h => by simpa using hc _ h,
          fun h => by simpa using hc _ h, fun h => by simpa using hc _ h⟩
      exact ⟨by simp [hne, hu], fun _ => ⟨by simp [hne], fun _ =>
        ⟨by simp [hne, hz], by simp [hne, hfull], fun _ _ => hk⟩⟩⟩

/-- **The exact conditions for a fault.**  The byte at the instruction pointer may be no opcode.  An
instruction with an immediate faults if the immediate is cut off, if there is no room for what it
pushes, or if a jump that is taken leads off the tape.  An instruction without one faults if
operands are missing, then if it is led astray, then if it divides by zero or finds no room, and at
last if the console refuses what it asks for. -/
theorem step_fault_kinds (h : Reachable config m) (hs : m.status = .running)
    (hip : m.ip < m.tape.capacity) (c : κ) :
    (m.FaultsWith c .unknownOpcode ↔ Opcode.ofByte? (m.tape.cell m.ip) = none) ∧
    ∀ op, Opcode.ofByte? (m.tape.cell m.ip) = some op →
      (op.hasImmediate = true →
        (m.tape.capacity < m.ip + 5 → ∀ k, m.FaultsWith c k ↔ k = .bounds) ∧
        (m.ip + 5 ≤ m.tape.capacity →
          (m.FaultsWith c .stackOverflow ↔
            (op = .push ∨ op = .const) ∧ m.stack.depth = config.maxStackDepth) ∧
          (m.FaultsWith c .bounds ↔
            m.Jumps op ∧ ¬ (0 ≤ m.immediate.toInt ∧ m.immediate.toInt < m.tape.capacity)) ∧
          ∀ k, m.FaultsWith c k → k = .stackOverflow ∨ k = .bounds)) ∧
      (op.hasImmediate = false →
        (m.FaultsWith c .stackUnderflow ↔ m.stack.depth < op.operandCount) ∧
        (op.operandCount ≤ m.stack.depth →
          (m.FaultsWith c .bounds ↔ m.Astray op) ∧
          (¬ m.Astray op →
            (m.FaultsWith c .divisionByZero ↔
              (op = .arith .div ∨ op = .arith .mod) ∧ m.operand 0 = 0) ∧
            (m.FaultsWith c .stackOverflow ↔
              (op = .dup ∨ op = .readInt) ∧ m.stack.depth = config.maxStackDepth) ∧
            (¬ ((op = .arith .div ∨ op = .arith .mod) ∧ m.operand 0 = 0) →
              ¬ ((op = .dup ∨ op = .readInt) ∧ m.stack.depth = config.maxStackDepth) →
              (m.FaultsWith c .malformedInput ↔ ∃ r input expected, m.request? op = some r ∧
                (Console.respond r c).1 = .error (.malformed input expected)) ∧
              (m.FaultsWith c .consoleFailure ↔ ∃ r e, m.request? op = some r ∧
                (Console.respond r c).1 = .error e ∧
                ∀ input expected, e ≠ .malformed input expected) ∧
              ∀ k, m.FaultsWith c k → k = .malformedInput ∨ k = .consoleFailure)))) := by
  have hc := h.conforms
  have hm := hc.withinLimits
  have hfull : m.stack.depth = config.maxStackDepth ↔ m.stack.limit ≤ m.stack.depth := by
    rw [← hc.limit_eq]
    have := hc.depth_le
    omega
  refine ⟨faultsWith_unknownOpcode_iff hm hs hip, fun op hb => ⟨fun hi => ?_, fun hi => ?_⟩⟩
  · have hsize : op.size = 5 := Opcode.size_of_hasImmediate hi
    refine ⟨fun hlt k => ?_, fun hle => ?_⟩
    · exact faultsWith_of_objection hm hs ⟨hip, hb⟩ (objection?_of_truncated hi (by omega))
    · rw [hfull, ← grows_iff_of_hasImmediate hi, ← stray?_ne_none_iff_jumps hi]
      exact fault_kinds_of_hasImmediate hm hs ⟨hip, hb⟩ hi (by omega)
  · obtain ⟨hu, hrest⟩ := fault_kinds_of_not_hasImmediate (c := c) hm hs ⟨hip, hb⟩ hi
    rw [hfull, ← grows_iff_of_not_hasImmediate hi, ← stray?_ne_none_iff_astray hi, ← divides_iff,
      not_not]
    refine ⟨hu, fun hn => ⟨(hrest hn).1, fun hst => ?_⟩⟩
    obtain ⟨hz, ho, hk⟩ := (hrest hn).2 hst
    refine ⟨hz, ho, fun hz' ho' => ⟨?_, ?_, ?_⟩⟩
    · simp only [hk hz' ho', ConsoleError.kind_toFault_eq_malformedInput_iff]
      constructor
      · rintro ⟨r, e, hr, he, input, expected, rfl⟩
        exact ⟨r, input, expected, hr, he⟩
      · rintro ⟨r, input, expected, hr, he⟩
        exact ⟨r, _, hr, he, input, expected, rfl⟩
    · simp only [hk hz' ho', ConsoleError.kind_toFault_eq_consoleFailure_iff]
    · intro k hf
      obtain ⟨r, e, -, -, rfl⟩ := (hk hz' ho' k).1 hf
      exact e.kind_toFault

/-- A second push finds the stack full, and its operand is not looked at as an address. -/
theorem step_fault_kinds_full_stack :
    ∃ m : Machine, Reachable { tapeCapacity := 10, maxStackDepth := 1 } m ∧
      m.status = .running ∧ m.immediate = -1 ∧
      m.FaultsWith (Script.ofLines []) .stackOverflow ∧
      ¬ m.FaultsWith (Script.ofLines []) .bounds := by
  have h : Reachable { tapeCapacity := 10, maxStackDepth := 1 } _ :=
    .step (Script.ofLines []) (.load #[0x01, 0, 0, 0, 0, 0x01, 0xff, 0xff, 0xff, 0xff] .new)
  have hk := ((step_fault_kinds h (by rfl) (by decide) (Script.ofLines [])).2 .push (by rfl)).1
    (by rfl) |>.2 (by decide)
  refine ⟨_, h, by rfl, by rfl, hk.1.2 ⟨.inl rfl, by rfl⟩, fun hb => ?_⟩
  rcases (hk.2.1.1 hb).1 with hj | ⟨b, hj, -⟩ <;> cases hj

end Machine

end TapeMachine
