import Mathlib.Tactic.ByContra
import TapeMachine.Proofs.Completion
import TapeMachine.Proofs.Runs

/-!
# Progress in straight lines

Only a taken jump, a call or a return can lead backward on the tape.  Every other instruction that
does not stop the machine moves the instruction pointer forward (`Machine.ip_lt_ip_step`), and it
cannot get further than the end of the tape.  So between two control transfers there are no more
steps than bytes from the first one to the end (`Machine.straight_line_progress`), whatever is
written over the program on the way: the argument does not look at the bytes ahead.
-/

namespace TapeMachine

namespace Machine

variable {κ : Type} [Console κ] {config : Config} {m : Machine} {c : κ} {n : Nat}

/-- The step after the first `k` steps executes a taken jump, a call or a return. -/
def TransfersAt (m : Machine) (c : κ) (k : Nat) : Prop :=
  ∃ op, (stepN k m c).1.Completes (stepN k m c).2 op ∧ (stepN k m c).1.Transfers op

/-! ### One step -/

/-- A machine that is still running after a step has completed an instruction. -/
theorem exists_completes (hm : m.WithinLimits) (hs : m.status = .running)
    (hr : (m.step c).1.status = .running) : ∃ op, m.Completes c op := by
  have hok : ∀ e, (m.step c).1.status ≠ .faulted e := by
    intro e hfault
    rw [hr] at hfault
    cases hfault
  rcases Nat.eq_or_lt_of_le hm.ip_le with heq | hlt
  · rw [step_of_runsOff hs heq] at hr
    cases hr
  · cases hb : Opcode.ofByte? (m.tape.cell m.ip) with
    | none =>
      rw [step_of_unknown hs hlt hb] at hok
      exact absurd rfl (hok _)
    | some op => exact ⟨op, hs, ⟨hlt, hb⟩, hok⟩

/-- A step that neither stops the machine nor transfers control leads forward. -/
theorem ip_lt_ip_step (hm : m.WithinLimits) (hs : m.status = .running)
    (hr : (m.step c).1.status = .running) (hstraight : ∀ op, m.Completes c op → ¬ m.Transfers op) :
    m.ip < (m.step c).1.ip := by
  obtain ⟨op, hop⟩ := exists_completes hm hs hr
  rw [ip_step_of_running hm hs hop.2.1 hr (hstraight op hop)]
  exact Nat.lt_add_of_pos_right op.size_pos

/-! ### Steps in a row -/

theorem status_of_stepN_succ (h : (stepN (n + 1) m c).1.status = .running) :
    (stepN n m c).1.status = .running := by
  by_contra hstop
  rw [stepN_of_stopped_of_le hstop (Nat.le_succ n)] at h
  exact hstop h

/-- Steps in a straight line lead forward by at least one byte each. -/
theorem ip_add_le_ip_stepN (h : m.Conforms config) (hr : (stepN n m c).1.status = .running)
    (hstraight : ∀ k < n, ¬ m.TransfersAt c k) : m.ip + n ≤ (stepN n m c).1.ip := by
  induction n with
  | zero => exact Nat.le_refl _
  | succ n ih =>
    have hbefore := status_of_stepN_succ hr
    have hreached := ih hbefore fun k hk => hstraight k (Nat.lt_succ_of_lt hk)
    rw [stepN_succ] at hr ⊢
    have hforward := ip_lt_ip_step (h.stepN c n).withinLimits hbefore hr fun op hop ht =>
      hstraight n (Nat.lt_succ_self n) ⟨op, hop, ht⟩
    omega

/-- A straight line ends where the tape does. -/
theorem stops_or_transfers (h : m.Conforms config) (c : κ) :
    (stepN (m.tape.capacity - m.ip + 1) m c).1.status ≠ .running ∨
      ∃ k < m.tape.capacity - m.ip + 1, m.TransfersAt c k := by
  by_cases htransfer : ∃ k < m.tape.capacity - m.ip + 1, m.TransfersAt c k
  · exact .inr htransfer
  · refine .inl fun hr => ?_
    have hend := h.stepN c (m.tape.capacity - m.ip + 1)
    have hreached := ip_add_le_ip_stepN h hr fun k hk ht => htransfer ⟨k, hk, ht⟩
    have hcapacity := hend.capacity_eq.trans h.capacity_eq.symm
    have hlast := hend.ip_le
    omega

/-- A transfer after `n` steps and some more is one after all of them. -/
theorem transfersAt_stepN {k : Nat} (h : (stepN n m c).1.TransfersAt (stepN n m c).2 k) :
    m.TransfersAt c (n + k) := by
  unfold TransfersAt at h ⊢
  rwa [stepN_add]

theorem run_eq_none_iff : m.run c = none ↔ ∀ n, (stepN n m c).1.status = .running := by
  constructor
  · intro hnone n
    by_contra hstop
    obtain ⟨verdict, hv⟩ := Option.ne_none_iff_exists'.1 (mt Status.verdict?_eq_none_iff.1 hstop)
    rw [run_of_stepN hv] at hnone
    cases hnone
  · intro hrunning
    by_contra hsome
    obtain ⟨r, hr⟩ := Option.ne_none_iff_exists'.1 hsome
    obtain ⟨n, hn, hv⟩ := exists_stepN_of_run hr
    rw [← hn, Status.verdict?_eq_none_iff.2 (hrunning n)] at hv
    cases hv

/-- **Straight lines end.**  From a reachable running machine, as many steps as there are bytes up
to the end of the tape, and one more, stop the machine or execute a control transfer.  So a run
without control transfers ends, and a run that does not end executes them again and again. -/
theorem straight_line_progress (h : Reachable config m) (c : κ) :
    ((stepN (m.tape.capacity - m.ip + 1) m c).1.status ≠ .running ∨
      ∃ k < m.tape.capacity - m.ip + 1, m.TransfersAt c k) ∧
    ((∀ k, ¬ m.TransfersAt c k) → ∃ result, m.run c = some result) ∧
    (m.run c = none → ∀ n, ∃ k, n ≤ k ∧ m.TransfersAt c k) := by
  have hm := h.conforms
  refine ⟨stops_or_transfers hm c, fun hnone => ?_, fun hforever n => ?_⟩
  · rcases stops_or_transfers hm c with hstop | ⟨k, -, hk⟩
    · refine Option.ne_none_iff_exists'.1 fun hforever => ?_
      exact hstop (run_eq_none_iff.1 hforever _)
    · exact absurd hk (hnone k)
  · -- the machine after `n` steps is running as well, and the straight line from there ends
    rcases stops_or_transfers (hm.stepN c n) (stepN n m c).2 with hstop | ⟨k, -, hk⟩
    · rw [← stepN_add] at hstop
      exact absurd (run_eq_none_iff.1 hforever _) hstop
    · exact ⟨n + k, Nat.le_add_right n k, transfersAt_stepN hk⟩

/-- A machine that writes zeros over the jump at the end of its program. -/
def overwritingMachine : Machine :=
  (new { tapeCapacity := 16, maxStackDepth := 2 }).loadOrKeep
    #[0x01, 11, 0, 0, 0, 0x01, 0, 0, 0, 0, 0x05, 0x10, 0, 0, 0, 0]

/-- A machine that jumps to the jump it is at. -/
def circlingMachine : Machine :=
  (new { tapeCapacity := 5, maxStackDepth := 0 }).loadOrKeep #[0x10, 0, 0, 0, 0]

/-- The first machine has 17 steps and needs 9, since there is no jump left when it comes to it.
The second one never stops and jumps all the time. -/
theorem straight_line_progress_or_circle :
    Reachable { tapeCapacity := 16, maxStackDepth := 2 } overwritingMachine ∧
      overwritingMachine.status = .running ∧
      ((stepN 17 overwritingMachine (Script.ofLines [])).1.status ≠ .running ∨
        ∃ k < 17, overwritingMachine.TransfersAt (Script.ofLines []) k) ∧
      (stepN 9 overwritingMachine (Script.ofLines [])).1.status = .halted ∧
      Reachable { tapeCapacity := 5, maxStackDepth := 0 } circlingMachine ∧
      circlingMachine.run (Script.ofLines []) = none ∧
      ∀ n, ∃ k, n ≤ k ∧ circlingMachine.TransfersAt (Script.ofLines []) k := by
  have h : Reachable { tapeCapacity := 16, maxStackDepth := 2 } overwritingMachine := .load _ .new
  have h' : Reachable { tapeCapacity := 5, maxStackDepth := 0 } circlingMachine := .load _ .new
  have hcircle : ∀ n, stepN n circlingMachine (Script.ofLines []) =
      ({ circlingMachine with steps := n }, Script.ofLines []) := by
    intro n
    induction n with
    | zero => rfl
    | succ n ih =>
      rw [stepN_succ, ih]
      rfl
  have hforever : circlingMachine.run (Script.ofLines []) = none := by
    rw [run_eq_none_iff]
    intro n
    rw [hcircle]
    rfl
  exact ⟨h, by rfl, (straight_line_progress h (Script.ofLines [])).1, by rfl, h', hforever,
    (straight_line_progress h' (Script.ofLines [])).2.2 hforever⟩

end Machine

end TapeMachine
