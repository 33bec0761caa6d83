import TapeMachine.Proofs.Completion
import TapeMachine.Proofs.Runs

/-!
# Flags as a record of the last comparison

The flags of a run are a function of its history: each family tells how the last instruction that
writes it came out, `CMP` for the relational flags and `TEST` for the others, or nothing if there
has been none since the program was loaded (`Machine.flags_tell_last_comparison`).  Whatever else
has been executed in between makes no difference.

* `Family.compared` are the two numbers that the instruction of a family compares, and
  `Flags.marks` is what it leaves in the flags;
* `Machine.LastCompletion` picks the last completed instruction of a kind out of a run;
* `Machine.Told` says what a conditional jump waits for in terms of that instruction alone.
-/

namespace TapeMachine

/-! ### The families side by side -/

/-- The instruction that writes a family. -/
def Family.opcode : Family → Opcode
  | relational => .cmp
  | signTest => .test

/-- The numbers that the instruction of a family compares: the two top entries of the stack, or the
top entry and zero. -/
def Family.compared (m : Machine) : Family → Int × Int
  | relational => ((m.operand 1).toInt, (m.operand 0).toInt)
  | signTest => ((m.operand 0).toInt, 0)

/-- The flags of a family: equal, not equal, above, below. -/
def Flags.row (f : Flags) : Family → List Bool
  | .relational => [f.equal, f.notEqual, f.above, f.below]
  | .signTest => [f.zero, f.notZero, f.aboveZero, f.belowZero]

/-- The flags of a family after `p.1` has been compared with `p.2`. -/
def Flags.marks (p : Int × Int) : List Bool :=
  [decide (p.1 = p.2), decide (p.1 ≠ p.2), decide (p.2 < p.1), decide (p.1 < p.2)]

/-- The family that a condition looks at. -/
def Condition.family : Condition → Family
  | zero | notZero | belowZero | aboveZero => .signTest
  | below | belowOrEqual | equal | notEqual | above | aboveOrEqual => .relational

/-- The relation that a condition names. -/
def Condition.Relates (p : Int × Int) : Condition → Prop
  | zero | equal => p.1 = p.2
  | notZero | notEqual => p.1 ≠ p.2
  | belowZero | below => p.1 < p.2
  | aboveZero | above => p.2 < p.1
  | belowOrEqual => p.1 ≤ p.2
  | aboveOrEqual => p.2 ≤ p.1

namespace Flags

variable {f : Flags} {a b : Word} {family : Family} {p : Int × Int} {cond : Condition}

theorem row_clear (family : Family) : clear.row family = [false, false, false, false] := by
  cases family <;> rfl

theorem row_compare_relational : (f.compare a b).row .relational = marks (a.toInt, b.toInt) := by
  simp [row, compare, marks, Int32.toInt_inj, Int32.lt_iff_toInt_lt]

theorem row_compare_signTest : (f.compare a b).row .signTest = f.row .signTest := rfl

theorem row_test_signTest : (f.test a).row .signTest = marks (a.toInt, 0) := by
  simp [row, test, marks, ← Int32.toInt_inj, Int32.lt_iff_toInt_lt]

theorem row_test_relational : (f.test a).row .relational = f.row .relational := rfl

/-- A condition looks at the flags for the relation that it names. -/
theorem holds_iff_of_row (h : f.row cond.family = marks p) :
    f.holds cond = true ↔ cond.Relates p := by
  cases cond <;>
    simp only [row, Condition.family, marks, List.cons.injEq] at h <;>
    obtain ⟨h₁, h₂, h₃, h₄, -⟩ := h <;>
    simp [holds, Condition.Relates, h₁, h₂, h₃, h₄] <;> omega

theorem holds_of_row_false (h : f.row cond.family = [false, false, false, false]) :
    f.holds cond = false := by
  cases cond <;>
    simp only [row, Condition.family, List.cons.injEq] at h <;>
    obtain ⟨h₁, h₂, h₃, h₄, -⟩ := h <;>
    simp [holds, h₁, h₂, h₃, h₄]

end Flags

namespace Machine

variable {κ : Type} [Console κ] {config : Config} {m : Machine} {c : κ} {op : Opcode} {e : Effect}
  {family : Family}

/-! ### One step -/

/-- An instruction writes the family it is made for, and no other instruction does. -/
theorem row_commit (h : (m.intent op).Allows e) (family : Family) :
    (m.commit op e).flags.row family =
      if op = family.opcode then Flags.marks (family.compared m) else m.flags.row family := by
  cases op with
  | cmp =>
    cases h
    cases family with
    | relational => exact Flags.row_compare_relational
    | signTest => exact Flags.row_compare_signTest
  | test =>
    cases h
    cases family with
    | relational => exact Flags.row_test_relational
    | signTest => exact Flags.row_test_signTest
  | jumpIf b =>
    cases hb : m.flags.holds b
    all_goals
      simp only [intent, hb, if_true, Bool.false_eq_true, if_false] at h
      cases h
      cases family <;> rfl
  | readString =>
    obtain ⟨line, rfl⟩ := h
    simp only [storeLine]
    split <;> cases family <;> rfl
  | printInt | printString | readInt =>
    obtain ⟨a, rfl⟩ := h
    cases family <;> rfl
  | _ =>
    cases h
    cases family <;> rfl

theorem row_step_of_completes (hm : m.WithinLimits) (h : m.Completes c family.opcode) :
    (m.step c).1.flags.row family = Flags.marks (family.compared m) := by
  obtain ⟨-, e, he, hstep⟩ := h.exists_effect hm
  rw [hstep, row_commit (m := m.count) he, if_pos rfl]
  cases family <;> rfl

theorem row_step_of_not_completes (hm : m.WithinLimits) (h : ¬ m.Completes c family.opcode) :
    (m.step c).1.flags.row family = m.flags.row family := by
  rcases completes_or_keeps hm c with ⟨op, e, hop, -, he, hstep⟩ | ⟨-, steps, status, hstep⟩
  · have hne : op ≠ family.opcode := fun heq => h (heq ▸ hop)
    rw [hstep, row_commit (m := m.count) he, if_neg hne]
    rfl
  · rw [hstep]

/-! ### Whole runs -/

/-- Step `i` of a run executes `op` and does not fault. -/
def CompletesAt (m : Machine) (c : κ) (op : Opcode) (i : Nat) : Prop :=
  (stepN i m c).1.Completes (stepN i m c).2 op

/-- Step `i` is the last of the first `n` steps of a run that executes `op` and does not fault. -/
def LastCompletion (m : Machine) (c : κ) (op : Opcode) (n i : Nat) : Prop :=
  i < n ∧ m.CompletesAt c op i ∧ ∀ j, i < j → j < n → ¬ m.CompletesAt c op j

theorem exists_lastCompletion (m : Machine) (c : κ) (op : Opcode) (n : Nat) :
    (∀ i < n, ¬ m.CompletesAt c op i) ∨ ∃ i, m.LastCompletion c op n i := by
  induction n with
  | zero => exact .inl fun i hi => absurd hi (Nat.not_lt_zero i)
  | succ n ih =>
    by_cases hn : m.CompletesAt c op n
    · exact .inr ⟨n, Nat.lt_succ_self n, hn, fun j hj hj' => by omega⟩
    · have hlast : ∀ j, j < n + 1 → j < n ∨ j = n := fun j hj => by omega
      rcases ih with hnone | ⟨i, hi, hc, hafter⟩
      · refine .inl fun i hi => ?_
        rcases hlast i hi with hlt | rfl
        · exact hnone i hlt
        · exact hn
      · refine .inr ⟨i, Nat.lt_succ_of_lt hi, hc, fun j hij hj => ?_⟩
        rcases hlast j hj with hlt | rfl
        · exact hafter j hij hlt
        · exact hn

/-- A family stays as it is as long as its instruction is not completed. -/
theorem row_stepN_of_not_completes (hm : m.Conforms config) {i n : Nat} (hle : i ≤ n)
    (h : ∀ j, i ≤ j → j < n → ¬ m.CompletesAt c family.opcode j) :
    (stepN n m c).1.flags.row family = (stepN i m c).1.flags.row family := by
  induction hle with
  | refl => rfl
  | @step n hle ih =>
    have hn : ¬ m.CompletesAt c family.opcode n := h n hle (Nat.lt_succ_self n)
    rw [stepN_succ, row_step_of_not_completes (hm.stepN c n).withinLimits hn]
    exact ih fun j hij hj => h j hij (Nat.lt_succ_of_lt hj)

theorem row_stepN_of_clear (hm : m.Conforms config) (hclear : m.flags = .clear) {n : Nat}
    (h : ∀ i < n, ¬ m.CompletesAt c family.opcode i) :
    (stepN n m c).1.flags.row family = [false, false, false, false] := by
  rw [row_stepN_of_not_completes hm (Nat.zero_le n) fun j _ hj => h j hj, stepN, hclear,
    Flags.row_clear]

/-- A family tells how the last instruction that wrote it came out. -/
theorem row_stepN_of_lastCompletion (hm : m.Conforms config) {i n : Nat}
    (h : m.LastCompletion c family.opcode n i) :
    (stepN n m c).1.flags.row family = Flags.marks (family.compared (stepN i m c).1) := by
  obtain ⟨hlt, hc, hafter⟩ := h
  rw [row_stepN_of_not_completes hm (Nat.succ_le_of_lt hlt) fun j hij hj => hafter j hij hj,
    stepN_succ]
  exact row_step_of_completes (hm.stepN c i).withinLimits hc

/-- What a condition asks for has been found to hold by the last instruction, among the first `n`
of a run, that writes its family. -/
def Told (m : Machine) (c : κ) (n : Nat) (cond : Condition) : Prop :=
  ∃ i, m.LastCompletion c cond.family.opcode n i ∧
    cond.Relates (cond.family.compared (stepN i m c).1)

theorem holds_stepN_iff_told (hm : m.Conforms config) (hclear : m.flags = .clear) (n : Nat)
    (cond : Condition) : (stepN n m c).1.flags.holds cond = true ↔ m.Told c n cond := by
  rcases exists_lastCompletion m c cond.family.opcode n with hnone | ⟨i, hi⟩
  · rw [Flags.holds_of_row_false (row_stepN_of_clear hm hclear hnone)]
    simp only [Bool.false_eq_true, false_iff]
    rintro ⟨i, ⟨hlt, hc, -⟩, -⟩
    exact hnone i hlt hc
  · rw [Flags.holds_iff_of_row (row_stepN_of_lastCompletion hm hi)]
    refine ⟨fun hrel => ⟨i, hi, hrel⟩, ?_⟩
    rintro ⟨j, hj, hrel⟩
    -- there is only one last instruction
    have hij : i = j := by
      rcases Nat.lt_trichotomy i j with hlt | heq | hgt
      · exact absurd hj.2.1 (hi.2.2 j hlt hj.1)
      · exact heq
      · exact absurd hi.2.1 (hj.2.2 i hgt hi.1)
    exact hij ▸ hrel

theorem flags_of_load {m₀ : Machine} {image : Array UInt8} (hl : m₀.load image = .ok m) :
    m.flags = .clear := by
  obtain ⟨tape, -, rfl⟩ := exists_restart_of_load hl
  rfl

/-- **The flags tell the last comparison.**  In every state of a run after a load, the flags of a
family are clear if its instruction has not been completed yet, and otherwise they are the relations
between the numbers that the last one of them compared.  So a conditional jump is taken exactly if
there has been such an instruction and the relation that the jump names held then. -/
theorem flags_tell_last_comparison {m₀ : Machine} {image : Array UInt8}
    (hr : Reachable config m₀) (hl : m₀.load image = .ok m) (c : κ) (n : Nat) :
    let now := (stepN n m c).1
    let console := (stepN n m c).2
    (∀ family : Family,
      ((∀ i < n, ¬ m.CompletesAt c family.opcode i) →
        now.flags.row family = [false, false, false, false]) ∧
      ∀ i, m.LastCompletion c family.opcode n i →
        now.flags.row family = Flags.marks (family.compared (stepN i m c).1)) ∧
    ∀ cond : Condition,
      (now.flags.holds cond = true ↔ m.Told c n cond) ∧
      (now.status = .running → now.Fetches (.jumpIf cond) → now.ip + 5 ≤ now.tape.capacity →
        (m.Told c n cond →
          (0 ≤ now.immediate.toInt ∧ now.immediate.toInt < now.tape.capacity →
            now.step console =
              ({ now with ip := now.immediate.toInt.toNat, steps := now.steps + 1 }, console)) ∧
          (¬ (0 ≤ now.immediate.toInt ∧ now.immediate.toInt < now.tape.capacity) →
            (now.step console).1.status =
              .faulted (.bounds now.immediate.toInt 1 now.tape.capacity))) ∧
        (¬ m.Told c n cond →
          now.step console = ({ now with ip := now.ip + 5, steps := now.steps + 1 }, console))) := by
  intro now console
  have hm : m.Conforms config := hr.conforms.load hl
  have hclear := flags_of_load hl
  have hlimits : now.WithinLimits := (hm.stepN c n).withinLimits
  refine ⟨fun family => ⟨row_stepN_of_clear hm hclear, fun i => row_stepN_of_lastCompletion hm⟩,
    fun cond => ⟨holds_stepN_iff_told hm hclear n cond, fun hs hf hfit => ⟨?_, ?_⟩⟩⟩
  · intro htold
    have hj : now.Jumps (.jumpIf cond) :=
      .inr ⟨cond, rfl, (holds_stepN_iff_told hm hclear n cond).2 htold⟩
    refine ⟨step_of_jumps hlimits hs hf hj hfit, fun hout => ?_⟩
    rw [step_of_jumps_astray hlimits hs hf hj hfit hout]
    rfl
  · intro hnot
    have hb : now.flags.holds cond = false := by
      rw [← Bool.not_eq_true, holds_stepN_iff_told hm hclear n cond]
      exact hnot
    exact step_of_not_holds hlimits hs hf hb hfit

/-- A program that compares the least word with one and jumps to its start if that is below. -/
def extremesProgram : Array UInt8 :=
  #[0x01, 0, 0, 0, 0x80, 0x01, 1, 0, 0, 0, 0x0f, 0xf0, 0, 0, 0, 0]

/-- A machine with that program. -/
def extremesMachine : Machine :=
  (new { tapeCapacity := 16, maxStackDepth := 2 }).loadOrKeep extremesProgram

/-- The least word is below one, although their difference wraps to a positive word, and so the jump
behind the comparison is taken. -/
theorem flags_tell_last_comparison_extremes :
    (new { tapeCapacity := 16, maxStackDepth := 2 }).load extremesProgram = .ok extremesMachine ∧
      extremesMachine.Told (Script.ofLines []) 3 .below ∧
      (stepN 3 extremesMachine (Script.ofLines [])).1.flags.row .relational =
        [false, true, false, true] ∧
      (stepN 4 extremesMachine (Script.ofLines [])).1.ip = 0 := by
  have hl : (new { tapeCapacity := 16, maxStackDepth := 2 }).load extremesProgram =
      .ok extremesMachine := rfl
  obtain ⟨hrow, hjump⟩ := flags_tell_last_comparison .new hl (Script.ofLines []) 3
  have hlast : extremesMachine.LastCompletion (Script.ofLines []) .cmp 3 2 :=
    ⟨by decide, ⟨by rfl, ⟨by decide, by rfl⟩, fun e h => by cases h⟩, fun j hj hj' => by omega⟩
  have hbelow : (-2147483648 : Int) < 1 := by decide
  have htold : extremesMachine.Told (Script.ofLines []) 3 .below := ⟨2, hlast, hbelow⟩
  refine ⟨hl, htold, (hrow .relational).2 2 hlast, ?_⟩
  obtain ⟨htaken, -⟩ := (hjump .below).2 (by rfl) ⟨by decide, by rfl⟩ (by decide)
  rw [stepN_succ, (htaken htold).1 (by decide)]
  rfl

end Machine

end TapeMachine
