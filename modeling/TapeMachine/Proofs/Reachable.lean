import TapeMachine.Console.Script
import TapeMachine.Proofs.Transition

/-!
# Reachable machines

A machine is `Machine.Reachable` when it comes about from a new one by loading images, accepted or
refused, and by making steps, at consoles of any kind.  Such a machine has the sizes it was made
with and stays within its limits (`Machine.Reachable.conforms`).  So its instruction pointer never
leaves the tape by more than one byte, and fetching an opcode never reads outside the tape
(`Machine.reachable_within_bounds`).
-/

namespace TapeMachine

theorem Tape.capacity_of_load {t t' : Tape} {image : Array UInt8} (h : t.load image = .ok t') :
    t'.capacity = t.capacity := by
  unfold load at h
  split_ifs at h with hs
  cases h
  simp only [capacity, Array.size_append, Array.size_replicate] at hs ⊢
  omega

namespace Machine

/-- The machine after an attempt to load an image.  A refused image leaves it as it is. -/
def loadOrKeep (m : Machine) (image : Array UInt8) : Machine :=
  match m.load image with
  | .ok m => m
  | .error _ => m

/-- The machines that loads and steps make of a new one. -/
inductive Reachable (config : Config) : Machine → Prop
  | new : Reachable config (.new config)
  | load {m : Machine} (image : Array UInt8) (h : Reachable config m) :
      Reachable config (m.loadOrKeep image)
  | step {m : Machine} {κ : Type} [Console κ] (c : κ) (h : Reachable config m) :
      Reachable config (m.step c).1

/-- A machine has the sizes of `config` and is within them. -/
structure Conforms (config : Config) (m : Machine) : Prop where
  capacity_eq : m.tape.capacity = config.capacity
  limit_eq : m.stack.limit = config.maxStackDepth
  ip_le : m.ip ≤ m.tape.capacity
  depth_le : m.stack.depth ≤ m.stack.limit

variable {config : Config} {m m' : Machine} {op : Opcode} {e : Effect} {κ : Type} [Console κ]

theorem Conforms.withinLimits (h : m.Conforms config) : m.WithinLimits where
  ip_le := h.ip_le
  capacity_le := h.capacity_eq ▸ Nat.min_le_right _ _
  depth_le := h.depth_le

theorem conforms_new : (new config).Conforms config where
  capacity_eq := Tape.capacity_blank _
  limit_eq := rfl
  ip_le := Nat.zero_le _
  depth_le := Nat.zero_le _

theorem Conforms.load {image : Array UInt8} (h : m.Conforms config) (hl : m.load image = .ok m') :
    m'.Conforms config := by
  obtain ⟨tape, ht, rfl⟩ := exists_restart_of_load hl
  exact
    { capacity_eq := (Tape.capacity_of_load ht).trans h.capacity_eq
      limit_eq := h.limit_eq
      ip_le := Nat.zero_le _
      depth_le := Nat.zero_le _ }

theorem Conforms.loadOrKeep (h : m.Conforms config) (image : Array UInt8) :
    (m.loadOrKeep image).Conforms config := by
  unfold Machine.loadOrKeep
  cases hl : m.load image with
  | error e => exact h
  | ok m' => exact h.load hl

/-! ### One step -/

@[simp] theorem capacity_commit : (m.commit op e).tape.capacity = m.tape.capacity := by
  unfold commit
  split <;> simp

/-- An instruction that is complete ends on the tape. -/
theorem ip_add_size_le (hf : m.Fetches op) (ht : m.truncated? op = none) :
    m.ip + op.size ≤ m.tape.capacity := by
  cases hi : op.hasImmediate with
  | false =>
    rw [Opcode.size_of_not_hasImmediate hi]
    exact hf.1
  | true => exact truncated?_eq_none_iff.1 ht hi

/-- An address that has been checked for one byte is on the tape. -/
theorem addressOf_lt {a : Word} (hr : m.reach? op = some (a, 1)) (hs : m.stray? op = none) :
    addressOf a < m.tape.capacity := by
  rw [stray?_of_reach?_eq_some hr, Tape.stray?_eq_none_iff] at hs
  unfold addressOf
  omega

theorem ip_commit_le (hf : m.Fetches op) (ho : m.objection? op = none)
    (he : (m.intent op).Allows e) : (m.commit op e).ip ≤ m.tape.capacity := by
  obtain ⟨ht, -, hs, -, -⟩ := objection?_eq_none_iff.1 ho
  rcases flow_of_allows he with h | ⟨a, hr, h⟩ | ⟨-, h⟩
  · simp only [commit, h]
    exact ip_add_size_le hf ht
  · simp only [commit, h]
    exact Nat.le_of_lt (addressOf_lt hr hs)
  · simp only [commit, h]
    exact Nat.le_of_lt hf.1

/-- Entries that are exchanged keep to the limit: what is put on the stack takes the room of what is
taken off, or there has been a check for it. -/
theorem depth_commit_le (hd : m.stack.depth ≤ m.stack.limit) (ho : m.objection? op = none)
    (he : (m.intent op).Allows e) : (m.commit op e).stack.depth ≤ m.stack.limit := by
  obtain ⟨-, hu, -, -, hl⟩ := objection?_eq_none_iff.1 ho
  obtain ⟨htaken, hadded⟩ := stack_of_allows he
  have hn := underflow?_eq_none_iff.1 hu
  simp only [commit, Stack.depth_replace]
  rcases hadded with hle | ⟨hg, h0, h1⟩
  · -- no more is put on than is taken off
    omega
  · have := overflow?_eq_none_iff.1 hl hg
    omega

theorem Conforms.commit (h : m.Conforms config) (hf : m.Fetches op) (ho : m.objection? op = none)
    (he : (m.intent op).Allows e) : (m.commit op e).Conforms config where
  capacity_eq := capacity_commit.trans h.capacity_eq
  limit_eq := h.limit_eq
  ip_le := by
    rw [capacity_commit]
    exact ip_commit_le hf ho he
  depth_le := depth_commit_le h.depth_le ho he

theorem Conforms.count (h : m.Conforms config) : m.count.Conforms config :=
  ⟨h.capacity_eq, h.limit_eq, h.ip_le, h.depth_le⟩

theorem Conforms.fail (h : m.Conforms config) (e : Fault) : (m.fail e).Conforms config :=
  ⟨h.capacity_eq, h.limit_eq, h.ip_le, h.depth_le⟩

/-- A step keeps the sizes and stays within them. -/
theorem Conforms.step (h : m.Conforms config) (c : κ) : (m.step c).1.Conforms config := by
  by_cases hs : m.status = .running
  · generalize hr : m.step c = r
    have ht := transition_step h.withinLimits hs c
    rw [hr] at ht
    cases ht with
    | runsOff => exact ⟨h.capacity_eq, h.limit_eq, h.ip_le, h.depth_le⟩
    | unknown => exact h.fail _
    | objected => exact h.count.fail _
    | committed hf ho hi => exact h.count.commit hf ho (by rw [show m.count.intent _ = _ from hi]; rfl)
    | answered hf ho hi hr =>
      exact h.count.commit hf ho (by rw [show m.count.intent _ = _ from hi]; exact ⟨_, rfl⟩)
    | refused => exact h.count.fail _
  · rw [step_of_stopped hs]
    exact h

/-- **Every reachable machine has the sizes it was made with and is within them.** -/
theorem Reachable.conforms (h : Reachable config m) : m.Conforms config := by
  induction h with
  | new => exact conforms_new
  | load image _ ih => exact ih.loadOrKeep image
  | step c _ ih => exact ih.step c

/-! ### What this means for fetching and calling -/

theorem WithinLimits.fetch_ne_bounds (hm : m.WithinLimits) (address : Int) (width capacity : Nat) :
    m.fetch ≠ .error (.bounds address width capacity) := by
  rcases Nat.eq_or_lt_of_le hm.ip_le with heq | hlt
  · rw [fetch_of_eq heq]
    exact fun h => by cases h
  · rw [fetch_of_lt hlt]
    split <;> exact fun h => by cases h

theorem WithinLimits.toInt_returnAddress (hm : m.WithinLimits) (hlt : m.ip < m.tape.capacity) :
    (Int32.ofNat (m.ip + Opcode.call.size)).toInt = m.ip + 1 := by
  have hc := hm.capacity_le
  unfold Word.maxValue at hc
  rw [Int32.toInt_ofNat_of_lt (by change m.ip + 1 < _; omega)]
  rfl

/-- A call that succeeds leaves the address behind it on top of the stack. -/
theorem entry_of_call (hm : m.WithinLimits) (hs : m.status = .running) (hf : m.Fetches .call)
    {c : κ} (hr : (m.step c).1.status = .running) :
    (m.step c).1.stack.entry 0 = Int32.ofNat (m.ip + Opcode.call.size) := by
  rw [step_of_fetches hm hs hf] at hr ⊢
  cases ho : m.count.objection? .call with
  | some e =>
    rw [follow_of_objection ho] at hr
    cases hr
  | none =>
    rw [follow_of_commit ho rfl]
    rfl

/-- **Reachable machines stay within bounds.**  The tape keeps the capacity asked for, cut off at
the greatest word; the instruction pointer is on the tape or just behind it; the stack keeps to its
limit.  So a running machine never fetches from outside the tape, and the return address of a call
is a word. -/
theorem reachable_within_bounds (h : Reachable config m) :
    m.tape.capacity = min config.tapeCapacity 2147483647 ∧ m.ip ≤ m.tape.capacity ∧
      m.stack.depth ≤ config.maxStackDepth ∧
      (m.status = .running →
        (m.ip = m.tape.capacity ∨ ∃ b, m.tape.readByte m.ip = .ok b) ∧
        (∀ address width capacity, m.fetch ≠ .error (.bounds address width capacity)) ∧
        (m.fetch = .ok (some .call) →
          (Int32.ofNat (m.ip + Opcode.call.size)).toInt = m.ip + 1 ∧
          ∀ {κ : Type} [Console κ] (c : κ), (m.step c).1.status = .running →
            ((m.step c).1.stack.entry 0).toInt = m.ip + 1)) := by
  have hc := h.conforms
  have hm := hc.withinLimits
  refine ⟨hc.capacity_eq, hc.ip_le, hc.limit_eq ▸ hc.depth_le, fun hs => ⟨?_, hm.fetch_ne_bounds, ?_⟩⟩
  · rcases Nat.eq_or_lt_of_le hc.ip_le with heq | hlt
    · exact .inl heq
    · exact .inr ⟨_, Tape.readByte_of_lt hlt⟩
  · intro hcall
    have hf := (fetches_iff hm).2 hcall
    have hback := hm.toInt_returnAddress hf.1
    refine ⟨hback, fun c hr => ?_⟩
    rw [entry_of_call hm hs hf hr, hback]

/-- The call at the last byte of a full tape, on a stack with room for one entry. -/
theorem reachable_within_bounds_last_byte :
    ∃ m : Machine, Reachable { tapeCapacity := 6, maxStackDepth := 1 } m ∧
      m.status = .running ∧ m.ip = 5 ∧ m.fetch = .ok (some .call) ∧ m.tape.capacity = 6 ∧
      ((m.step (Script.ofLines [])).1.stack.entry 0).toInt = 6 := by
  have h : Reachable { tapeCapacity := 6, maxStackDepth := 1 } _ :=
    .step (Script.ofLines []) (.load #[0x01, 0, 0, 0, 0, 0x0b] .new)
  have hb := reachable_within_bounds h
  refine ⟨_, h, by decide, by decide, by rfl, hb.1, ?_⟩
  exact ((hb.2.2.2 (by rfl)).2.2 (by rfl)).2 (Script.ofLines []) (by rfl)

end Machine

end TapeMachine
