import TapeMachine.Proofs.Reachable
import TapeMachine.Session

/-!
# Runs

A machine can be driven step by step (`Machine.stepN`), with a budget of steps (`Machine.runFuel`),
with a budget and a log (`Session.run`), or until it stops (`Machine.run`).  All of them go through
the same states (`Machine.drivers_agree`): a budget of `n` leaves the machine where `n` steps leave
it, and a run without a budget ends where some number of steps ends.

A stopped machine stays as it is, so budgets add up and what is left of one after the machine has
stopped makes no difference.
-/

namespace TapeMachine

theorem Status.verdict?_eq_none_iff {s : Status} : s.verdict? = none ↔ s = .running := by
  cases s <;> simp [verdict?]

theorem Status.verdict?_eq_ok_iff {s : Status} : s.verdict? = some (.ok ()) ↔ s = .halted := by
  cases s <;> simp [verdict?]

theorem Status.verdict?_eq_error_iff {s : Status} {e : Fault} :
    s.verdict? = some (.error e) ↔ s = .faulted e := by
  cases s <;> simp [verdict?]

namespace Machine

variable {κ : Type} [Console κ] {config : Config} {m : Machine} {c : κ}

/-! ### Steps in a row -/

theorem stepN_add (n k : Nat) (m : Machine) (c : κ) :
    stepN (n + k) m c = stepN k (stepN n m c).1 (stepN n m c).2 := by
  induction n generalizing m c with
  | zero => rw [Nat.zero_add, stepN]
  | succ n ih =>
    rw [Nat.succ_add]
    exact ih _ _

/-- The last of `n + 1` steps. -/
theorem stepN_succ (n : Nat) (m : Machine) (c : κ) :
    stepN (n + 1) m c = (stepN n m c).1.step (stepN n m c).2 :=
  stepN_add n 1 m c

theorem stepN_of_stopped (h : m.status ≠ .running) (n : Nat) : stepN n m c = (m, c) := by
  induction n with
  | zero => rfl
  | succ n ih => rw [stepN_succ, ih, step_of_stopped h]

theorem stepN_of_stopped_of_le {n k : Nat} (h : (stepN n m c).1.status ≠ .running) (hle : n ≤ k) :
    stepN k m c = stepN n m c := by
  obtain ⟨extra, rfl⟩ := Nat.exists_eq_add_of_le hle
  rw [stepN_add, stepN_of_stopped h]

theorem Conforms.stepN (h : m.Conforms config) (c : κ) (n : Nat) :
    (stepN n m c).1.Conforms config := by
  induction n with
  | zero => exact h
  | succ n ih =>
    rw [stepN_succ]
    exact ih.step _

theorem Reachable.stepN (h : Reachable config m) (c : κ) (n : Nat) :
    Reachable config (stepN n m c).1 := by
  induction n with
  | zero => exact h
  | succ n ih =>
    rw [stepN_succ]
    exact ih.step _

/-! ### The count of steps -/

/-- A step of a running machine is counted, unless it finds nothing to dispatch and stops. -/
theorem steps_step (hm : m.WithinLimits) (hs : m.status = .running) (c : κ) :
    (m.step c).1.steps = m.steps + 1 ∨
      (m.step c).1.steps = m.steps ∧ (m.step c).1.status ≠ .running := by
  have ht := transition_step hm hs c
  generalize m.step c = r at ht ⊢
  cases ht with
  | runsOff => exact .inr ⟨rfl, by simp⟩
  | unknown => exact .inr ⟨rfl, by simp [fail]⟩
  | objected | committed | answered | refused => exact .inl rfl

/-- A run counts no more steps than it makes, and exactly those as long as it goes on. -/
theorem steps_stepN (h : m.Conforms config) (c : κ) (n : Nat) :
    (stepN n m c).1.steps ≤ m.steps + n ∧
      ((stepN n m c).1.status = .running → (stepN n m c).1.steps = m.steps + n) := by
  induction n with
  | zero => exact ⟨Nat.le_refl _, fun _ => rfl⟩
  | succ n ih =>
    obtain ⟨hle, heq⟩ := ih
    rw [stepN_succ]
    by_cases hrun : (stepN n m c).1.status = .running
    · have hn := heq hrun
      rcases steps_step (h.stepN c n).withinLimits hrun (stepN n m c).2 with h1 | ⟨h0, hstop⟩
      · exact ⟨by omega, fun _ => by omega⟩
      · exact ⟨by omega, fun hr => absurd hr hstop⟩
    · rw [step_of_stopped hrun]
      exact ⟨Nat.le_succ_of_le hle, fun hr => absurd hr hrun⟩

/-! ### Budgets -/

/-- A budget of `n` is worth `n` steps. -/
theorem runFuel_eq_stepN (n : Nat) (m : Machine) (c : κ) : (runFuel n m c).2 = stepN n m c := by
  induction n generalizing m c with
  | zero => rfl
  | succ n ih =>
    simp only [runFuel, stepN]
    split
    · exact ih _ _
    · rename_i hstop
      rw [stepN_of_stopped (by simpa using hstop)]

end Machine

namespace Session

variable {κ : Type} [Console κ]

/-- Keeping a log changes nothing. -/
theorem machine_console_step (s : Session κ) :
    (s.step.machine, s.step.console) = s.machine.step s.console :=
  rfl

theorem machine_console_run (n : Nat) (s : Session κ) :
    ((s.run n).machine, (s.run n).console) = Machine.stepN n s.machine s.console := by
  induction n generalizing s with
  | zero => rfl
  | succ n ih =>
    simp only [run, Machine.stepN, ← machine_console_step]
    split
    · exact ih _
    · rename_i hstop
      rw [Machine.stepN_of_stopped (by simpa using hstop)]

end Session

namespace Machine

variable {κ : Type} [Console κ] {config : Config} {m : Machine} {c : κ}

/-! ### Runs without a budget -/

theorem run_of_running (h : (m.step c).1.status = .running) :
    m.run c = (m.step c).1.run (m.step c).2 := by
  rw [run]
  simp only [Status.verdict?_eq_none_iff.2 h]

theorem run_of_verdict {verdict : Except Fault Unit}
    (h : (m.step c).1.status.verdict? = some verdict) : m.run c = some (verdict, m.step c) := by
  rw [run]
  simp only [h]

/-- A run that has a result ends after some number of steps. -/
theorem exists_stepN_of_run {r : Except Fault Unit × Machine × κ} (h : m.run c = some r) :
    ∃ n, stepN n m c = r.2 ∧ r.2.1.status.verdict? = some r.1 := by
  refine run.partial_correctness
    (fun m c r => ∃ n, stepN n m c = r.2 ∧ r.2.1.status.verdict? = some r.1) ?_ m c r h
  intro run ih m c r hr
  cases hv : (m.step c).1.status.verdict? with
  | some verdict =>
    simp only [hv, Option.some.injEq] at hr
    subst hr
    exact ⟨1, rfl, hv⟩
  | none =>
    simp only [hv] at hr
    obtain ⟨n, hn, hstop⟩ := ih _ _ _ hr
    exact ⟨n + 1, hn, hstop⟩

/-- A machine that has stopped after some number of steps is what a run ends with. -/
theorem run_of_stepN {n : Nat} {verdict : Except Fault Unit}
    (h : (stepN n m c).1.status.verdict? = some verdict) :
    m.run c = some (verdict, stepN n m c) := by
  induction n generalizing m c with
  | zero =>
    -- the machine has stopped before the run, which makes one step and finds it so
    have hstop : m.status ≠ .running := fun hs => by
      rw [stepN, Status.verdict?_eq_none_iff.2 hs] at h
      cases h
    have hstep : m.step c = (m, c) := step_of_stopped hstop c
    have hv : (m.step c).1.status.verdict? = some verdict := by rw [hstep]; exact h
    rw [run_of_verdict hv, hstep, stepN]
  | succ n ih =>
    by_cases hrun : (m.step c).1.status = .running
    · rw [run_of_running hrun]
      exact ih h
    · have hn : stepN (n + 1) m c = m.step c := stepN_of_stopped hrun n
      rw [hn] at h ⊢
      exact run_of_verdict h

theorem run_eq_some_iff {verdict : Except Fault Unit} {m' : Machine} {c' : κ} :
    m.run c = some (verdict, m', c') ↔
      ∃ n, stepN n m c = (m', c') ∧ m'.status.verdict? = some verdict := by
  constructor
  · intro h
    exact exists_stepN_of_run h
  · rintro ⟨n, hn, hv⟩
    have hv' : (stepN n m c).1.status.verdict? = some verdict := by rw [hn]; exact hv
    rw [run_of_stepN hv', hn]

/-- **All drivers go through the same states.**  A budget of `n` leaves machine and console as `n`
steps do, with or without a log.  Budgets add up, and once the machine has stopped, more of them
makes no difference.  A machine that is still running has counted the whole budget, and one that
has stopped no more than that.  A run without a budget halts or faults exactly if some budget is
enough for that, and ends in the same state. -/
theorem drivers_agree (h : Reachable config m) (c : κ) :
    (∀ n, (runFuel n m c).2 = stepN n m c) ∧
    (∀ n log journal, let s := Session.run n ⟨log, m, c, journal⟩
      (s.machine, s.console) = stepN n m c) ∧
    (∀ n k, (runFuel k (runFuel n m c).2.1 (runFuel n m c).2.2).2 = (runFuel (n + k) m c).2) ∧
    (∀ n, (runFuel n m c).2.1.status ≠ .running →
      ∀ k, n ≤ k → (runFuel k m c).2 = (runFuel n m c).2) ∧
    (∀ n, (runFuel n m c).2.1.steps ≤ m.steps + n ∧
      ((runFuel n m c).2.1.status = .running → (runFuel n m c).2.1.steps = m.steps + n)) ∧
    (∀ m' c', m.run c = some (.ok (), m', c') ↔
      ∃ n, (runFuel n m c).2 = (m', c') ∧ m'.status = .halted) ∧
    (∀ e m' c', m.run c = some (.error e, m', c') ↔
      ∃ n, (runFuel n m c).2 = (m', c') ∧ m'.status = .faulted e) := by
  simp only [runFuel_eq_stepN]
  refine ⟨fun n => trivial, fun n log journal => Session.machine_console_run n _,
    fun n k => (stepN_add n k m c).symm, fun n hstop k hle => stepN_of_stopped_of_le hstop hle,
    fun n => steps_stepN h.conforms c n, fun m' c' => ?_, fun e m' c' => ?_⟩
  · rw [run_eq_some_iff]
    simp only [Status.verdict?_eq_ok_iff]
  · rw [run_eq_some_iff]
    simp only [Status.verdict?_eq_error_iff]

/-- On a tape that one instruction fills, the budget of one is used up while the machine is still
running.  The second step notices the end of the tape; it is not counted, but the run takes it. -/
theorem drivers_agree_end_of_tape :
    ∃ m : Machine, Reachable { tapeCapacity := 1, maxStackDepth := 0 } m ∧ m.status = .running ∧
      (runFuel 1 m (Script.ofLines [])).2.1.status = .running ∧
      (runFuel 1 m (Script.ofLines [])).2.1.steps = m.steps + 1 ∧
      (runFuel 2 m (Script.ofLines [])).2.1.status = .halted ∧
      ∃ m' c', m.run (Script.ofLines []) = some (.ok (), m', c') ∧ m'.steps = 1 := by
  have h : Reachable { tapeCapacity := 1, maxStackDepth := 0 } _ := .load #[0x00] .new
  obtain ⟨-, -, -, -, hsteps, hok, -⟩ := drivers_agree h (Script.ofLines [])
  exact ⟨_, h, by rfl, by rfl, (hsteps 1).2 (by rfl), by rfl, _, _,
    (hok _ _).2 ⟨2, rfl, by rfl⟩, by rfl⟩

end Machine

end TapeMachine
