import TapeMachine.Proofs.Faults

/-!
# Instructions that run to their end

A step either completes the instruction it fetches (`Machine.Completes`) or leaves tape, stack,
flags and instruction pointer alone (`Machine.completes_or_keeps`).  What a completed instruction
changes is one of the effects that its plan allows.

Three things can happen to the instruction pointer: `HALT` leaves it where it is, an instruction
that `Machine.Transfers` control sets it, and every other one moves it behind itself
(`Machine.ip_step_of_running`).  A conditional jump does the one or the other, depending on the
flags.
-/

namespace TapeMachine

namespace Machine

variable {κ : Type} [Console κ] {m : Machine} {c : κ} {op : Opcode} {e : Effect}

/-- The next step executes `op` and does not fault. -/
def Completes (m : Machine) (c : κ) (op : Opcode) : Prop :=
  m.status = .running ∧ m.Fetches op ∧ ∀ e, (m.step c).1.status ≠ .faulted e

/-- The instruction is one that sets the instruction pointer: a call, a return, or a jump that is
taken. -/
def Transfers (m : Machine) (op : Opcode) : Prop := m.Jumps op ∨ op = .call ∨ op = .ret

theorem Fetches.unique {op' : Opcode} (h : m.Fetches op) (h' : m.Fetches op') : op = op' :=
  Option.some.inj (h.2.symm.trans h'.2)

/-- A step completes an instruction, or it keeps all but the status and the count of steps. -/
theorem completes_or_keeps (hm : m.WithinLimits) (c : κ) :
    (∃ op e, m.Completes c op ∧ m.objection? op = none ∧ (m.intent op).Allows e ∧
      (m.step c).1 = m.count.commit op e) ∨
    (∀ op, ¬ m.Completes c op) ∧ ∃ steps status, (m.step c).1 = { m with steps, status } := by
  by_cases hs : m.status ≠ .running
  · rw [step_of_stopped hs]
    exact .inr ⟨fun op h => hs h.1, _, _, rfl⟩
  rw [ne_eq, Decidable.not_not] at hs
  have ht := transition_step hm hs c
  generalize hr : m.step c = r at ht ⊢
  cases ht with
  | runsOff heq => exact .inr ⟨fun op h => absurd heq (Nat.ne_of_lt h.2.1.1), _, _, rfl⟩
  | unknown _ hb =>
    refine .inr ⟨fun op h => ?_, _, _, rfl⟩
    cases hb.symm.trans h.2.1.2
  | objected => exact .inr ⟨fun op h => h.2.2 _ (by rw [hr]; rfl), _, _, rfl⟩
  | refused => exact .inr ⟨fun op h => h.2.2 _ (by rw [hr]; rfl), _, _, rfl⟩
  | committed hf ho hi =>
    refine .inl ⟨_, _, ⟨hs, hf, fun f hfault => ?_⟩, ho, by rw [hi]; rfl, rfl⟩
    rw [hr] at hfault
    exact status_ne_running_of_commit hfault hs
  | answered hf ho hi =>
    refine .inl ⟨_, _, ⟨hs, hf, fun f hfault => ?_⟩, ho, by rw [hi]; exact ⟨_, rfl⟩, rfl⟩
    rw [hr] at hfault
    exact status_ne_running_of_commit hfault hs

/-- A completed instruction carries out an effect that its plan allows. -/
theorem Completes.exists_effect (hm : m.WithinLimits) (h : m.Completes c op) :
    m.objection? op = none ∧
      ∃ e, (m.intent op).Allows e ∧ (m.step c).1 = m.count.commit op e := by
  rcases completes_or_keeps hm c with ⟨op', e, h', ho, he, hstep⟩ | ⟨hnone, -⟩
  · obtain rfl := h.2.1.unique h'.2.1
    exact ⟨ho, e, he, hstep⟩
  · exact absurd h (hnone op)

/-! ### Where a completed instruction leads -/

theorem transfers_of_destination? {a : Word} (h : m.destination? op = some a) : m.Transfers op := by
  cases op with
  | call => exact .inr (.inl rfl)
  | ret => exact .inr (.inr rfl)
  | jump => exact .inl (.inl rfl)
  | jumpIf b =>
    simp only [destination?] at h
    split at h
    · rename_i hb
      exact .inl (.inr ⟨b, rfl, hb⟩)
    · cases h
  | _ => cases h

theorem transfers_of_allows {target : Nat} (h : (m.intent op).Allows e)
    (hflow : e.flow = .jump target) : m.Transfers op := by
  rw [(profile_of_allows h).flow_eq] at hflow
  cases hd : m.destination? op with
  | some a => exact transfers_of_destination? hd
  | none =>
    rw [hd] at hflow
    simp only at hflow
    split at hflow <;> cases hflow

/-- An instruction that neither faults nor halts nor transfers control leads to the one behind
it. -/
theorem ip_step_of_running (hm : m.WithinLimits) (hs : m.status = .running) (hf : m.Fetches op)
    (hr : (m.step c).1.status = .running) (ht : ¬ m.Transfers op) :
    (m.step c).1.ip = m.ip + op.size := by
  have hcompletes : m.Completes c op := by
    refine ⟨hs, hf, fun e hfault => ?_⟩
    rw [hr] at hfault
    cases hfault
  obtain ⟨-, e, he, hstep⟩ := hcompletes.exists_effect hm
  rw [hstep] at hr ⊢
  rcases flow_of_allows he with hflow | ⟨a, -, hflow⟩ | ⟨-, hflow⟩
  · simp only [commit, hflow]
    rfl
  · exact absurd (transfers_of_allows he hflow) ht
  · simp only [commit, hflow] at hr
    cases hr

/-! ### Jumps -/

/-- A jump that is taken has nothing to check but its immediate and its destination. -/
theorem Jumps.plan (h : m.Jumps op) :
    op.hasImmediate = true ∧ m.reach? op = some (m.immediate, 1) ∧
      m.intent op = .commit { flow := .jump (addressOf m.immediate) } ∧
      m.underflow? op = none ∧ m.zeroDivisor? op = none ∧ m.overflow? op = none := by
  rcases h with rfl | ⟨b, rfl, hb⟩
  · exact ⟨rfl, rfl, rfl, rfl, rfl, rfl⟩
  · refine ⟨rfl, ?_, ?_, rfl, rfl, rfl⟩
    · simp only [reach?, hb, if_true]
    · simp only [intent, hb, if_true]

/-- A jump that is taken goes to its destination. -/
theorem step_of_jumps (hm : m.WithinLimits) (hs : m.status = .running) (hf : m.Fetches op)
    (hj : m.Jumps op) (hfit : m.ip + op.size ≤ m.tape.capacity)
    (hin : 0 ≤ m.immediate.toInt ∧ m.immediate.toInt < m.tape.capacity) :
    m.step c = ({ m with ip := addressOf m.immediate, steps := m.steps + 1 }, c) := by
  obtain ⟨-, hreach, hi, hu, hz, hl⟩ := hj.plan
  have hstray : m.stray? op = none := by
    rw [stray?_of_reach?_eq_some hreach, Tape.stray?_eq_none_iff]
    omega
  have ho : m.objection? op = none :=
    objection?_eq_none_iff.2 ⟨truncated?_eq_none_iff.2 fun _ => hfit, hu, hstray, hz, hl⟩
  rw [step_of_commit hm hs hf ho hi]
  simp only [commit, count, Stack.replace_zero_nil]
  rfl

/-- A jump that is taken faults if its destination is not on the tape. -/
theorem step_of_jumps_astray (hm : m.WithinLimits) (hs : m.status = .running) (hf : m.Fetches op)
    (hj : m.Jumps op) (hfit : m.ip + op.size ≤ m.tape.capacity)
    (hout : ¬ (0 ≤ m.immediate.toInt ∧ m.immediate.toInt < m.tape.capacity)) :
    m.step c = (m.count.fail (m.tape.outside m.immediate.toInt 1), c) := by
  obtain ⟨-, hreach, -, hu, -, -⟩ := hj.plan
  have hstray : m.stray? op = some (m.tape.outside m.immediate.toInt 1) := by
    rw [stray?_of_reach?_eq_some hreach, Tape.stray?, if_neg (by omega), if_pos (by omega)]
    rfl
  have ho : m.objection? op = some (m.tape.outside m.immediate.toInt 1) :=
    objection?_of_stray (truncated?_eq_none_iff.2 fun _ => hfit) (underflow?_eq_none_iff.1 hu)
      hstray
  exact step_of_objection hm hs hf ho

/-- A conditional jump that is not taken is passed by, wherever it would lead. -/
theorem step_of_not_holds {b : Condition} (hm : m.WithinLimits) (hs : m.status = .running)
    (hf : m.Fetches (.jumpIf b)) (hb : m.flags.holds b = false)
    (hfit : m.ip + (Opcode.jumpIf b).size ≤ m.tape.capacity) :
    m.step c = ({ m with ip := m.ip + (Opcode.jumpIf b).size, steps := m.steps + 1 }, c) := by
  have hstray : m.stray? (.jumpIf b) = none := stray?_of_reach?_eq_none (by simp [reach?, hb])
  have ho : m.objection? (.jumpIf b) = none :=
    objection?_eq_none_iff.2 ⟨truncated?_eq_none_iff.2 fun _ => hfit, rfl, hstray, rfl, rfl⟩
  have hi : m.intent (.jumpIf b) = .commit {} := by simp [intent, hb]
  rw [step_of_commit hm hs hf ho hi]
  simp only [commit, count, Stack.replace_zero_nil]
  rfl

end Machine

end TapeMachine
