import TapeMachine.Proofs.Frames

/-!
# Calls and returns

`CALL` leaves the address behind itself on top of the stack, and `RET` goes to the address that it
finds there.  Nothing marks an entry as a return address, so a subroutine comes back to its caller
only if it leaves that entry and those below it alone.  `Machine.StaysAbove` says that a run does:
no instruction in it has operands among the lowest entries.  Then those entries are the same at its
end (`Machine.suffix_stepN`), whatever calls, loops and changes to the program there are in between,
and the return comes back with the stack that the caller had below its operand
(`Machine.call_returns`).

The address behind a call on the last byte of the tape is not on the tape, and the return faults.
-/

namespace TapeMachine

namespace Machine

variable {κ : Type} [Console κ] {config : Config} {m : Machine} {c : κ} {base : List Word}

/-! ### One call and one return -/

theorem Completes.step_call (hm : m.WithinLimits) (h : m.Completes c .call) :
    m.step c =
      (m.count.commit .call
        { taken := 1
          added := [Int32.ofNat (m.ip + Opcode.call.size)]
          flow := .jump (addressOf (m.operand 0)) }, c) := by
  obtain ⟨ho, -⟩ := h.exists_effect hm
  exact step_of_commit hm h.1 h.2.1 ho rfl

/-- A return goes to the address on top of the stack, if that is on the tape. -/
theorem step_of_ret (hm : m.WithinLimits) (hs : m.status = .running) (hf : m.Fetches .ret)
    (hdepth : 1 ≤ m.stack.depth)
    (hin : 0 ≤ (m.operand 0).toInt ∧ (m.operand 0).toInt < m.tape.capacity) :
    m.step c =
      (m.count.commit .ret { taken := 1, flow := .jump (addressOf (m.operand 0)) }, c) := by
  have hstray : m.stray? .ret = none := by
    rw [stray?_of_reach?_eq_some rfl, Tape.stray?_eq_none_iff]
    omega
  exact step_of_commit hm hs hf (objection?_eq_none_of_operands rfl rfl rfl hdepth hstray) rfl

/-- A return to an address that is not on the tape faults. -/
theorem step_of_ret_astray (hm : m.WithinLimits) (hs : m.status = .running) (hf : m.Fetches .ret)
    (hdepth : 1 ≤ m.stack.depth)
    (hout : ¬ (0 ≤ (m.operand 0).toInt ∧ (m.operand 0).toInt < m.tape.capacity)) :
    m.step c = (m.count.fail (m.tape.outside (m.operand 0).toInt 1), c) := by
  have hstray : m.stray? .ret = some (m.tape.outside (m.operand 0).toInt 1) := by
    rw [stray?_of_reach?_eq_some rfl, Tape.stray?, if_neg (by omega), if_pos (by omega)]
    rfl
  exact step_of_objection hm hs hf (objection?_of_stray rfl hdepth hstray)

/-! ### Entries that are left alone -/

/-- None of the first `n` steps of a run has operands among the lowest `d` entries of the stack. -/
def StaysAbove (m : Machine) (c : κ) (d n : Nat) : Prop :=
  ∀ i < n, ∀ op, (stepN i m c).1.Fetches op →
    d + op.operandCount ≤ (stepN i m c).1.stack.depth

/-- A step keeps the entries below its operands. -/
theorem suffix_step (hm : m.WithinLimits) (hbase : base <:+ m.stack.entries)
    (habove : ∀ op, m.Fetches op → base.length + op.operandCount ≤ m.stack.depth) (c : κ) :
    base <:+ (m.step c).1.stack.entries := by
  rcases completes_or_keeps hm c with ⟨op, e, hop, -, he, hstep⟩ | ⟨-, steps, status, hstep⟩
  · have hroom := habove op hop.2.1
    have hconsumed := op.consumed_le
    have hlength : base.length ≤ (m.stack.entries.drop op.consumed).length := by
      rw [List.length_drop, ← m.stack.depth_eq]
      omega
    have hdrop : base <:+ m.stack.entries.drop op.consumed :=
      List.suffix_of_suffix_length_le hbase (List.drop_suffix _ _) hlength
    rw [hstep, entries_commit (m := m.count) he]
    exact List.suffix_append_of_suffix hdrop
  · rw [hstep]
    exact hbase

/-- A run that stays above some entries keeps them. -/
theorem suffix_stepN (hm : m.Conforms config) (hbase : base <:+ m.stack.entries) {n : Nat}
    (habove : m.StaysAbove c base.length n) : base <:+ (stepN n m c).1.stack.entries := by
  induction n with
  | zero => exact hbase
  | succ n ih =>
    have hbefore : m.StaysAbove c base.length n := by
      intro i hi
      exact habove i (Nat.lt_succ_of_lt hi)
    rw [stepN_succ]
    exact suffix_step (hm.stepN c n).withinLimits (ih hbefore) (habove n (Nat.lt_succ_self n)) _

/-! ### Whole subroutines -/

/-- The stack that a call leaves: the address behind it takes the place of its operand. -/
theorem Completes.entries_call {callee : Machine} {c' : κ} (hm : m.WithinLimits)
    (h : m.Completes c .call) (hstep : m.step c = (callee, c')) :
    callee.stack.entries = Int32.ofNat (m.ip + Opcode.call.size) :: m.stack.entries.drop 1 := by
  rw [h.step_call hm] at hstep
  cases hstep
  rfl

/-- **A return comes back to its call.**  A call that succeeds leaves `d` entries on the stack, the
topmost of them the address behind the call.  Whatever is executed then without operands among these
`d` entries, a return that finds `d` entries goes to the address behind the call and leaves the
entries that the call found below its operand.  If there is no address behind the call, the return
faults and stays where it is. -/
theorem call_returns {callee now : Machine} {c₁ c₂ : κ} {d n : Nat} (h : Reachable config m)
    (hcall : m.Completes c .call) (hcallee : m.step c = (callee, c₁))
    (hd : callee.stack.depth = d) (habove : callee.StaysAbove c₁ d n)
    (hnow : stepN n callee c₁ = (now, c₂)) (hs : now.status = .running) (hret : now.Fetches .ret)
    (hdepth : now.stack.depth = d) :
    (callee.stack.entry 0).toInt = m.ip + 1 ∧
      (m.ip + 1 < m.tape.capacity →
        (now.step c₂).1.status = .running ∧ (now.step c₂).1.ip = m.ip + 1 ∧
          (now.step c₂).1.stack.depth = d - 1 ∧
          (now.step c₂).1.stack.entries = m.stack.entries.drop 1) ∧
      (m.ip + 1 = m.tape.capacity →
        (now.step c₂).1 =
            { now with
              status := .faulted (.bounds (m.ip + 1) 1 m.tape.capacity)
              steps := now.steps + 1 } ∧
          now.stack.entries.drop 1 = m.stack.entries.drop 1) := by
  have hm := h.conforms.withinLimits
  have hback := hm.toInt_returnAddress hcall.2.1.1
  have hentries := hcall.entries_call hm hcallee
  have hconforms : callee.Conforms config := h.conforms.of_step hcallee
  have hconforms' : now.Conforms config := hconforms.of_stepN hnow
  have hcapacity : now.tape.capacity = m.tape.capacity :=
    hconforms'.capacity_eq.trans h.conforms.capacity_eq.symm
  -- the run has kept the entries of the call, and there are no others at its end
  have hsame : now.stack.entries = callee.stack.entries := by
    rw [← hd, callee.stack.depth_eq] at habove
    have hsuffix := suffix_stepN hconforms List.suffix_rfl habove
    rw [hnow] at hsuffix
    refine (hsuffix.eq_of_length ?_).symm
    rw [← callee.stack.depth_eq, ← now.stack.depth_eq, hd, hdepth]
  have hbelow : now.stack.entries.drop 1 = m.stack.entries.drop 1 := by
    rw [hsame, hentries]
    rfl
  have hpos : 1 ≤ now.stack.depth := by
    rw [now.stack.depth_eq, hsame, hentries]
    exact Nat.succ_pos _
  have htop : (now.operand 0).toInt = m.ip + 1 := by
    rw [operand, Stack.entry, hsame, hentries]
    exact hback
  refine ⟨?_, fun hlt => ?_, fun heq => ?_⟩
  · rw [Stack.entry, hentries]
    exact hback
  · have hin : 0 ≤ (now.operand 0).toInt ∧ (now.operand 0).toInt < now.tape.capacity := by omega
    rw [step_of_ret hconforms'.withinLimits hs hret hpos hin]
    refine ⟨hs, ?_, ?_, hbelow⟩
    · change addressOf (now.operand 0) = _
      rw [addressOf, htop]
      rfl
    · change 0 + (now.stack.depth - 1) = _
      omega
  · have hout : ¬ (0 ≤ (now.operand 0).toInt ∧ (now.operand 0).toInt < now.tape.capacity) := by
      omega
    rw [step_of_ret_astray hconforms'.withinLimits hs hret hpos hout, htop, Tape.outside,
      hcapacity]
    exact ⟨rfl, hbelow⟩

/-- A machine at a call, with a 42 below the operand.  The subroutine pushes an entry and takes it
off again. -/
def callingMachine : Machine :=
  (stepN 2 ((new { tapeCapacity := 19, maxStackDepth := 3 }).loadOrKeep
    #[0x01, 42, 0, 0, 0, 0x01, 12, 0, 0, 0, 0x0b, 0xff, 0x01, 3, 0, 0, 0, 0x02, 0x0c])
    (Script.ofLines [])).1

/-- A machine at a call on the last byte of its tape.  The subroutine returns at once. -/
def lastCallingMachine : Machine :=
  (stepN 2 ((new { tapeCapacity := 12, maxStackDepth := 1 }).loadOrKeep
    #[0x10, 6, 0, 0, 0, 0x0c, 0x01, 5, 0, 0, 0, 0x0b])
    (Script.ofLines [])).1

/-- The first call is followed by the instruction behind it, with the 42 on the stack.  The return
of the second one faults. -/
theorem call_returns_or_faults :
    (stepN 4 callingMachine (Script.ofLines [])).1.ip = 11 ∧
      (stepN 4 callingMachine (Script.ofLines [])).1.stack.entries = [42] ∧
      (stepN 2 lastCallingMachine (Script.ofLines [])).1.status = .faulted (.bounds 12 1 12) ∧
      (stepN 2 lastCallingMachine (Script.ofLines [])).1.ip = 5 := by
  have h : Reachable { tapeCapacity := 19, maxStackDepth := 3 } callingMachine :=
    (Reachable.new.load _).stepN _ 2
  have hcall : callingMachine.Completes (Script.ofLines []) .call :=
    ⟨by rfl, ⟨by decide, by rfl⟩, fun f hf => by cases hf⟩
  have hcallee : callingMachine.step (Script.ofLines []) =
      ((callingMachine.step (Script.ofLines [])).1, Script.ofLines []) := rfl
  have habove : (callingMachine.step (Script.ofLines [])).1.StaysAbove (Script.ofLines []) 2 2 := by
    intro i hi op hop
    have hpush : (callingMachine.step (Script.ofLines [])).1.Fetches .push := ⟨by decide, by rfl⟩
    have hpop : (stepN 2 callingMachine (Script.ofLines [])).1.Fetches .pop := ⟨by decide, by rfl⟩
    match i, hi with
    | 0, _ =>
      cases hpush.unique hop
      decide
    | 1, _ =>
      cases hpop.unique hop
      decide
  have hret : (stepN 3 callingMachine (Script.ofLines [])).1.Fetches .ret := ⟨by decide, by rfl⟩
  obtain ⟨-, hreturns, -⟩ := call_returns h hcall hcallee rfl habove rfl (by rfl) hret (by rfl)
  obtain ⟨-, hip, -, hentries⟩ := hreturns (by decide)
  have h' : Reachable { tapeCapacity := 12, maxStackDepth := 1 } lastCallingMachine :=
    (Reachable.new.load _).stepN _ 2
  have hcall' : lastCallingMachine.Completes (Script.ofLines []) .call :=
    ⟨by rfl, ⟨by decide, by rfl⟩, fun f hf => by cases hf⟩
  have hcallee' : lastCallingMachine.step (Script.ofLines []) =
      ((lastCallingMachine.step (Script.ofLines [])).1, Script.ofLines []) := rfl
  have hret' : (lastCallingMachine.step (Script.ofLines [])).1.Fetches .ret :=
    ⟨by decide, by rfl⟩
  obtain ⟨-, -, hfaults⟩ := call_returns (n := 0) h' hcall' hcallee' rfl
    (fun i hi => absurd hi (Nat.not_lt_zero i)) rfl (by rfl) hret' rfl
  have hlast := (hfaults (by decide)).1
  refine ⟨hip, hentries, ?_, ?_⟩
  · exact congrArg status hlast
  · exact congrArg ip hlast

end Machine

end TapeMachine
