import TapeMachine.Proofs.Runs

/-!
# Loading again

A machine that has been used is as good as new once an image has been loaded on it: what loading
leaves depends on the image and on the sizes of the machine, and on nothing else
(`Machine.exists_reload`).  Zeros at the end of an image make no difference either
(`Machine.reload_append_zeros`).  An image that is too long is refused before anything is changed.
All this together is `Machine.reload_leaks_nothing`.
-/

namespace TapeMachine

namespace Tape

variable {t t' : Tape} {image : Array UInt8}

/-- What a tape holds after a load does not depend on what it held before. -/
theorem load_eq_of_capacity_eq (h : t.capacity = t'.capacity) (image : Array UInt8) :
    t.load image = t'.load image := by
  simp only [load, h]

/-- Zeros at the end of an image are the zeros that a load puts there anyway. -/
theorem load_append_zeros {k : Nat} (h : image.size + k ≤ t.capacity) :
    t.load (image ++ Array.replicate k 0) = t.load image := by
  have hzeros : k + (t.capacity - (image.size + k)) = t.capacity - image.size := by omega
  rw [load, load, if_pos (by simpa using h), if_pos (by omega), Array.size_append,
    Array.size_replicate, Array.append_assoc, Array.replicate_append_replicate, hzeros]

end Tape

namespace Machine

variable {config : Config} {m m' : Machine} {image : Array UInt8}

/-- Machines of the same sizes that are given the same tape start afresh in the same state. -/
theorem restart_eq_of_conforms (h : m.Conforms config) (h' : m'.Conforms config) (tape : Tape) :
    m.restart tape = m'.restart tape := by
  rw [restart, restart, Stack.clear, Stack.clear, h.limit_eq, h'.limit_eq]

/-- Machines of the same sizes come out of loading the same image in the same state. -/
theorem exists_reload (h : m.Conforms config) (h' : m'.Conforms config)
    (hfit : image.size ≤ m.tape.capacity) :
    ∃ fresh, reload image m = .ok () fresh ∧ reload image m' = .ok () fresh := by
  have hcap : m'.tape.capacity = m.tape.capacity := h'.capacity_eq.trans h.capacity_eq.symm
  obtain ⟨tape, ht⟩ : ∃ tape, m.tape.load image = .ok tape := ⟨_, if_pos hfit⟩
  have ht' : m'.tape.load image = .ok tape := (Tape.load_eq_of_capacity_eq hcap image).trans ht
  refine ⟨m.restart tape, reload_of_ok ht, ?_⟩
  rw [reload_of_ok ht', restart_eq_of_conforms h' h]

theorem reload_append_zeros {k : Nat} (h : image.size + k ≤ m.tape.capacity) :
    reload (image ++ Array.replicate k 0) m = reload image m := by
  have hload := Tape.load_append_zeros h
  cases ht : m.tape.load image with
  | error e => rw [reload_of_error ht, reload_of_error (hload.trans ht)]
  | ok tape => rw [reload_of_ok ht, reload_of_ok (hload.trans ht)]

theorem loadOrKeep_of_reload (h : reload image m = .ok () m') : m.loadOrKeep image = m' := by
  rw [loadOrKeep, load, h]

/-- **Loading leaks nothing.**  Whatever has been loaded and executed on a machine before, an image
that fits on its tape is accepted, and the machine is then in the state of a new machine with this
image.  So all that it does from then on is what the new machine does.  Zeros at the end of the
image make no difference as long as they fit.  An image that does not fit is refused, and the
machine stays as it was. -/
theorem reload_leaks_nothing (h : Reachable config m) (image : Array UInt8) :
    (image.size ≤ m.tape.capacity →
      (∃ fresh : Machine, reload image (new config) = .ok () fresh ∧
        reload image m = .ok () fresh ∧
        ∀ k, image.size + k ≤ m.tape.capacity →
          reload (image ++ Array.replicate k 0) m = .ok () fresh) ∧
      ∀ {κ : Type} [Console κ] (c : κ),
        (∀ n, stepN n (m.loadOrKeep image) c = stepN n ((new config).loadOrKeep image) c) ∧
        (m.loadOrKeep image).run c = ((new config).loadOrKeep image).run c) ∧
    (m.tape.capacity < image.size →
      reload image m = .error (.imageTooLong image.size m.tape.capacity) m) := by
  refine ⟨fun hfit => ?_, fun hlong => reload_of_error (if_neg (Nat.not_le.2 hlong))⟩
  obtain ⟨fresh, hm, hnew⟩ := exists_reload h.conforms conforms_new hfit
  refine ⟨⟨fresh, hnew, hm, fun k hk => ?_⟩, fun c => ?_⟩
  · rw [reload_append_zeros hk, hm]
  · rw [loadOrKeep_of_reload hm, loadOrKeep_of_reload hnew]
    exact ⟨fun n => rfl, rfl⟩

/-- A machine that has faulted with an entry on its stack refuses an image of nine bytes and stays
as it was.  It takes an image of one byte, with or without zeros behind it, and nothing is left of
the entry, the fault and the program before. -/
theorem reload_leaks_nothing_after_fault :
    ∃ m fresh : Machine, Reachable { tapeCapacity := 8, maxStackDepth := 1 } m ∧
      m.status.name = "faulted" ∧ m.stack.entries = [7] ∧
      reload (Array.replicate 9 1) m = .error (.imageTooLong 9 8) m ∧
      reload #[0x17] m = .ok () fresh ∧ reload #[0x17, 0, 0] m = .ok () fresh ∧
      fresh.status = .running ∧ fresh.stack.entries = [] ∧
      fresh.tape.cells = #[0x17, 0, 0, 0, 0, 0, 0, 0] := by
  have h : Reachable { tapeCapacity := 8, maxStackDepth := 1 } _ :=
    .step (Script.ofLines []) (.step (Script.ofLines []) (.load #[0x01, 7, 0, 0, 0, 0x01] .new))
  obtain ⟨⟨fresh, hnew, hm, hzeros⟩, -⟩ := (reload_leaks_nothing h #[0x17]).1 (by decide)
  have hrefused := (reload_leaks_nothing h (Array.replicate 9 1)).2 (by decide)
  refine ⟨_, fresh, h, by rfl, by rfl, hrefused, hm, hzeros 2 (by decide), ?_⟩
  cases hnew
  exact ⟨rfl, rfl, rfl⟩

end Machine

end TapeMachine
