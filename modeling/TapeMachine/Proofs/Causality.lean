import TapeMachine.Proofs.Consoles
import TapeMachine.Proofs.Runs

/-!
# Input that has not been read

A machine knows of its input only what it has read.  A script and one with more lines at the end
(`Script.Longer`) answer every request alike, except that the first may have no line left where the
other has one.  So two runs on such scripts agree, step by step, until the shorter script has a
machine fault for want of a line (`Machine.Starved`), and up to the step before
(`Machine.unread_input_has_no_influence`).
-/

namespace TapeMachine

/-- A script has printed the same as another one and has `more` lines behind those that the other
one has not read. -/
structure Script.Longer (more : List String) (c c' : Script) : Prop where
  events_eq : c'.events = c.events
  unread_eq : c'.unread = c.unread ++ more

theorem Script.longer_ofLines (xs ys : List String) :
    Longer ys (ofLines xs) (ofLines (xs ++ ys)) := ⟨rfl, rfl⟩

variable {more : List String} {c c' : Script}

/-- A longer script answers alike, unless there is no line for the answer in the shorter one. -/
theorem Script.Longer.respond (h : Longer more c c') {r : Request}
    (hopen : (Console.respond r c).1 ≠ .error .closed) :
    (Console.respond r c).1 = (Console.respond r c').1 ∧
      Longer more (Console.respond r c).2 (Console.respond r c').2 := by
  obtain ⟨unread, events⟩ := c
  obtain ⟨unread', events'⟩ := c'
  obtain ⟨hevents, hunread⟩ := h
  dsimp only at hevents hunread
  subst hevents hunread
  cases r with
  | readNumber | readText =>
    cases unread with
    | nil => exact absurd rfl hopen
    | cons line rest => exact ⟨rfl, rfl, rfl⟩
  | writeNumber | writeText => exact ⟨rfl, rfl, rfl⟩

namespace Machine

variable {config : Config} {m m₀ : Machine}

/-- The machine has faulted because there was no line to read. -/
def Starved (m : Machine) : Prop := m.status = .faulted (.consoleFailure "input closed")

/-- A step that is not starved does not depend on the lines behind those of the script. -/
theorem step_longer (hm : m.WithinLimits) (h : c.Longer more c') (hfed : ¬ (m.step c).1.Starved) :
    (m.step c).1 = (m.step c').1 ∧ Script.Longer more (m.step c).2 (m.step c').2 := by
  refine step_eq_of_respond hm h fun op hs hf ho r effect hi => h.respond fun hclosed => hfed ?_
  have hr : Console.respond r c = (.error .closed, (Console.respond r c).2) := Prod.ext hclosed rfl
  rw [step_of_fetches hm hs hf, follow_of_refusal (m := m.count) ho hi hr]
  rfl

theorem Starved.of_le {i j : Nat} (h : (stepN i m c).1.Starved) (hle : i ≤ j) :
    (stepN j m c).1.Starved := by
  have hstopped : (stepN i m c).1.status ≠ .running := by
    rw [h]
    simp
  rwa [stepN_of_stopped_of_le hstopped hle]

/-- A run that is not starved does not depend on the lines behind those of the script. -/
theorem stepN_longer (hm : m.Conforms config) (h : c.Longer more c') {n : Nat}
    (hfed : ¬ (stepN n m c).1.Starved) :
    (stepN n m c).1 = (stepN n m c').1 ∧
      Script.Longer more (stepN n m c).2 (stepN n m c').2 := by
  induction n with
  | zero => exact ⟨rfl, h⟩
  | succ n ih =>
    obtain ⟨hfst, hsnd⟩ := ih fun hstarved => hfed (hstarved.of_le (Nat.le_succ n))
    rw [stepN_succ] at hfed
    rw [stepN_succ, stepN_succ, ← hfst]
    exact step_longer (hm.stepN c n).withinLimits hsnd hfed

/-- A run that ends starved has been running up to the step that found no line. -/
theorem exists_last_fed {n : Nat} (hstart : ¬ m.Starved) (hend : (stepN n m c).1.Starved) :
    ∃ k < n, (stepN k m c).1.status = .running ∧ (stepN (k + 1) m c).1.Starved ∧
      ∀ j ≤ k, ¬ (stepN j m c).1.Starved := by
  induction n with
  | zero => exact absurd hend hstart
  | succ n ih =>
    by_cases hn : (stepN n m c).1.Starved
    · obtain ⟨k, hk, hrest⟩ := ih hn
      exact ⟨k, Nat.lt_succ_of_lt hk, hrest⟩
    · refine ⟨n, Nat.lt_succ_self n, ?_, hend, fun j hj hstarved => hn (hstarved.of_le hj)⟩
      -- a machine that had stopped otherwise would not have starved any more
      by_contra hstopped
      rw [stepN_of_stopped_of_le hstopped (Nat.le_succ n)] at hend
      exact hn hend

theorem status_of_load {image : Array UInt8} (hl : m₀.load image = .ok m) :
    m.status = .running := by
  obtain ⟨tape, -, rfl⟩ := exists_restart_of_load hl
  rfl

/-- **Input has no influence before it is read.**  Take a machine that has been loaded, and a script
and one with further lines.  After any number of steps the two runs are in the same state and have
printed the same, and the second script holds the further lines behind what the first one has left,
unless the first run has faulted over the end of its input.  In that case the same holds up to the
step before the fault. -/
theorem unread_input_has_no_influence (h : Reachable config m₀) {image : Array UInt8}
    (hl : m₀.load image = .ok m) (xs ys : List String) (n : Nat) :
    let run := fun k => stepN k m (Script.ofLines xs)
    let run' := fun k => stepN k m (Script.ofLines (xs ++ ys))
    let closed : Status := .faulted (.consoleFailure "input closed")
    ((run n).1.status ≠ closed →
      (run' n).1 = (run n).1 ∧ (run' n).2.events = (run n).2.events ∧
        (run' n).2.unread = (run n).2.unread ++ ys) ∧
    ((run n).1.status = closed →
      ∃ k < n, (run k).1.status = .running ∧ (run (k + 1)).1.status = closed ∧
        ∀ j ≤ k, (run' j).1 = (run j).1 ∧ (run' j).2.events = (run j).2.events ∧
          (run' j).2.unread = (run j).2.unread ++ ys) := by
  intro run run' closed
  have hm : m.Conforms config := h.conforms.load hl
  have hagree : ∀ k, ¬ (run k).1.Starved →
      (run' k).1 = (run k).1 ∧ (run' k).2.events = (run k).2.events ∧
        (run' k).2.unread = (run k).2.unread ++ ys := by
    intro k hfed
    obtain ⟨hfst, hsnd⟩ := stepN_longer hm (Script.longer_ofLines xs ys) hfed
    exact ⟨hfst.symm, hsnd.events_eq, hsnd.unread_eq⟩
  refine ⟨hagree n, fun hstarved => ?_⟩
  have hstart : ¬ m.Starved := by
    rw [Starved, status_of_load hl]
    simp
  obtain ⟨k, hk, hrunning, hnext, hfed⟩ := exists_last_fed hstart hstarved
  exact ⟨k, hk, hrunning, hnext, fun j hj => hagree j (hfed j hj)⟩

/-- Two numbers are asked for and one is there.  With a second line, the first step is the same and
leaves that line. -/
theorem unread_input_has_no_influence_second_line :
    ∃ m : Machine, (new { tapeCapacity := 2, maxStackDepth := 2 }).load #[0x17, 0x17] = .ok m ∧
      (stepN 2 m (Script.ofLines ["1"])).1.status = .faulted (.consoleFailure "input closed") ∧
      (stepN 1 m (Script.ofLines ["1"])).1.status = .running ∧
      (stepN 1 m (Script.ofLines ["1", "2"])).1 = (stepN 1 m (Script.ofLines ["1"])).1 ∧
      (stepN 1 m (Script.ofLines ["1", "2"])).2.unread = ["2"] := by
  have hl : (new { tapeCapacity := 2, maxStackDepth := 2 }).load #[0x17, 0x17] = .ok _ := rfl
  have hstarved := (unread_input_has_no_influence .new hl ["1"] ["2"] 2).2 (by rfl)
  obtain ⟨k, hk, hrunning, hnext, hagree⟩ := hstarved
  -- the fault comes with the second step
  obtain rfl : k = 1 := by
    have hne : k ≠ 0 := by
      rintro rfl
      cases hnext
    omega
  obtain ⟨hmachine, -, hunread⟩ := hagree 1 (Nat.le_refl 1)
  exact ⟨_, hl, hnext, hrunning, hmachine, hunread⟩

end Machine

end TapeMachine
