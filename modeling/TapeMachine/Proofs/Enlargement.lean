import TapeMachine.Proofs.Consoles
import TapeMachine.Proofs.Faults
import TapeMachine.Proofs.Runs

/-!
# Larger machines

`Machine.enlarge` adds blank bytes behind the tape and raises the limit of the stack.  A step of the
enlarged machine is the enlarged step of the machine (`Machine.step_enlarge`), unless the machine
stops because it is too small (`Machine.Outgrown`): an access leaves the tape, the stack is full, or
execution runs off the end of the tape.  No instruction looks at the sizes for any other reason.

So a program that has not outgrown a machine runs on every larger one in the same way
(`Machine.enlarging_keeps_run`), whatever it has written over itself by then.
-/

namespace TapeMachine

/-! ### Tape and stack -/

/-- What is written inside an array leaves what is appended to it alone. -/
theorem overwrite_append_of_le {cells zeros : Array UInt8} {start : Nat} {data : List UInt8}
    (h : start + data.length ≤ cells.size) :
    overwrite (cells ++ zeros) start data = overwrite cells start data ++ zeros := by
  induction data generalizing cells start with
  | nil => rfl
  | cons b data ih =>
    rw [List.length_cons] at h
    rw [overwrite, overwrite, Array.setIfInBounds_append_left (by omega)]
    exact ih (by rw [Array.size_setIfInBounds]; omega)

namespace Tape

variable {t : Tape} {extra start length : Nat}

/-- The tape with `extra` zeros behind it. -/
def extend (t : Tape) (extra : Nat) : Tape := ⟨t.cells ++ Array.replicate extra 0⟩

@[simp] theorem capacity_extend (t : Tape) (extra : Nat) :
    (t.extend extra).capacity = t.capacity + extra := by
  simp [extend, capacity]

/-- What is read outside a tape is zero, so longer tapes read the same. -/
@[simp] theorem cell_extend (t : Tape) (extra position : Nat) :
    (t.extend extra).cell position = t.cell position := by
  simp only [extend, cell, Array.getD_eq_getD_getElem?, Array.getElem?_append,
    Array.getElem?_replicate]
  split_ifs with hlt hextra
  · rfl
  · rw [Array.getElem?_eq_none (Nat.le_of_not_lt hlt)]
    rfl
  · rw [Array.getElem?_eq_none (Nat.le_of_not_lt hlt)]

@[simp] theorem word_extend (t : Tape) (extra position : Nat) :
    (t.extend extra).word position = t.word position := by
  simp only [word, cell_extend]

theorem slice_extend (h : start + length ≤ t.capacity) :
    (t.extend extra).slice start length = t.slice start length := by
  have hempty : start + length - t.cells.size = 0 := Nat.sub_eq_zero_of_le h
  simp [slice, extend, hempty]

theorem put_extend {data : List UInt8} (h : start + data.length ≤ t.capacity) :
    (t.extend extra).put start data = (t.put start data).extend extra :=
  congrArg Tape.mk (overwrite_append_of_le h)

/-- An image that is loaded on a longer tape has more zeros behind it. -/
theorem load_extend {t' : Tape} {image : Array UInt8} (h : t.load image = .ok t') :
    (t.extend extra).load image = .ok (t'.extend extra) := by
  unfold load at h
  split_ifs at h with hsize
  cases h
  have hzeros : t.capacity + extra - image.size = t.capacity - image.size + extra := by omega
  rw [load, capacity_extend, if_pos (by omega), hzeros]
  simp [extend]

end Tape

namespace Stack

/-- The stack with room for `room` more entries. -/
def widen (s : Stack) (room : Nat) : Stack := { s with limit := s.limit + room }

end Stack

namespace Machine

variable {κ : Type} [Console κ] {config : Config} {m : Machine} {op : Opcode} {e : Effect}
  {extra room : Nat} {c : κ}

/-- The machine with a longer tape and a higher limit on its stack. -/
def enlarge (m : Machine) (extra room : Nat) : Machine :=
  { m with tape := m.tape.extend extra, stack := m.stack.widen room }

@[simp] theorem flags_enlarge : (m.enlarge extra room).flags = m.flags := rfl

@[simp] theorem capacity_enlarge :
    (m.enlarge extra room).tape.capacity = m.tape.capacity + extra :=
  Tape.capacity_extend ..

@[simp] theorem cell_enlarge (position : Nat) :
    (m.enlarge extra room).tape.cell position = m.tape.cell position :=
  Tape.cell_extend ..

/-- The machine has stopped because it is too small. -/
def Outgrown (m : Machine) : Prop :=
  (∃ e, m.status = .faulted e ∧ (e.kind = .bounds ∨ e.kind = .stackOverflow)) ∨
    m.status = .halted ∧ m.ip = m.tape.capacity

theorem WithinLimits.enlarge (hm : m.WithinLimits)
    (hmax : m.tape.capacity + extra ≤ Word.maxValue) : (m.enlarge extra room).WithinLimits where
  ip_le := by
    rw [capacity_enlarge]
    exact Nat.le_add_right_of_le hm.ip_le
  capacity_le := by rwa [capacity_enlarge]
  depth_le := Nat.le_add_right_of_le hm.depth_le

/-! ### The checks -/

@[simp] theorem immediate_enlarge : (m.enlarge extra room).immediate = m.immediate :=
  Tape.word_extend ..

theorem reach?_enlarge : (m.enlarge extra room).reach? op = m.reach? op := by
  cases op with
  | jump | jumpIf => simp only [reach?, immediate_enlarge, flags_enlarge]
  | _ => rfl

theorem truncated?_enlarge (h : m.truncated? op = none) :
    (m.enlarge extra room).truncated? op = none := by
  refine truncated?_eq_none_iff.2 fun hi => ?_
  have hfit := truncated?_eq_none_iff.1 h hi
  rw [capacity_enlarge]
  exact Nat.le_add_right_of_le hfit

theorem stray?_enlarge (h : m.stray? op = none) : (m.enlarge extra room).stray? op = none := by
  cases hr : m.reach? op with
  | none => exact stray?_of_reach?_eq_none (reach?_enlarge.trans hr)
  | some region =>
    obtain ⟨address, length⟩ := region
    rw [stray?_of_reach?_eq_some hr, Tape.stray?_eq_none_iff] at h
    rw [stray?_of_reach?_eq_some (reach?_enlarge.trans hr), Tape.stray?_eq_none_iff,
      capacity_enlarge]
    omega

theorem overflow?_enlarge (h : m.overflow? op = none) :
    (m.enlarge extra room).overflow? op = none := by
  refine overflow?_eq_none_iff.2 fun hg => ?_
  exact Nat.lt_add_right room (overflow?_eq_none_iff.1 h hg)

/-- An objection is about the size of the machine, or it has come up in a check of something else,
and every check of a size before that one has passed. -/
theorem objection?_cases {f : Fault} (h : m.objection? op = some f) :
    (f.kind = .bounds ∨ f.kind = .stackOverflow) ∨
      m.truncated? op = none ∧ (m.underflow? op = some f ∨
        m.underflow? op = none ∧ m.stray? op = none ∧ m.zeroDivisor? op = some f) := by
  simp only [objection?, Option.or_eq_some_iff] at h
  rcases h with h | ⟨ht, h | ⟨hu, h | ⟨hs, h | ⟨-, h⟩⟩⟩⟩
  · cases (Option.ite_none_right_eq_some.1 h).2
    exact .inl (.inl rfl)
  · exact .inr ⟨ht, .inl h⟩
  · exact .inl (.inl (kind_of_stray? h))
  · exact .inr ⟨ht, .inr ⟨hu, hs, h⟩⟩
  · cases (Option.ite_none_right_eq_some.1 h).2
    exact .inl (.inr rfl)

/-- Where there is no objection, there is none on a larger machine, and an objection that is not
about the size is the same there. -/
theorem objection?_enlarge
    (h : ∀ f, m.objection? op = some f → ¬ (f.kind = .bounds ∨ f.kind = .stackOverflow)) :
    (m.enlarge extra room).objection? op = m.objection? op := by
  have hunder : (m.enlarge extra room).underflow? op = m.underflow? op := rfl
  have hzero : (m.enlarge extra room).zeroDivisor? op = m.zeroDivisor? op := rfl
  cases ho : m.objection? op with
  | none =>
    obtain ⟨ht, hu, hs, hz, hl⟩ := objection?_eq_none_iff.1 ho
    exact objection?_eq_none_iff.2
      ⟨truncated?_enlarge ht, hunder.trans hu, stray?_enlarge hs, hzero.trans hz,
        overflow?_enlarge hl⟩
  | some f =>
    rcases objection?_cases ho with hk | ⟨ht, hu | ⟨hu, hs, hz⟩⟩
    · exact absurd hk (h f ho)
    · simp only [objection?, truncated?_enlarge ht, hunder, hu, Option.none_or, Option.some_or]
    · simp only [objection?, truncated?_enlarge ht, hunder, hu, stray?_enlarge hs, hzero, hz,
        Option.none_or, Option.some_or]

/-! ### The effects -/

/-- A region that has been checked ends on the tape. -/
theorem addressOf_add_le {a : Word} {n : Int} (hs : m.stray? op = none)
    (hr : m.reach? op = some (a, n)) : addressOf a + n.toNat ≤ m.tape.capacity := by
  rw [stray?_of_reach?_eq_some hr, Tape.stray?_eq_none_iff] at hs
  unfold addressOf
  omega

theorem intent_enlarge (ho : m.objection? op = none) :
    (m.enlarge extra room).intent op = m.intent op := by
  obtain ⟨-, -, hs, -, -⟩ := objection?_eq_none_iff.1 ho
  cases op with
  | push | const | jump | jumpIf => simp only [intent, immediate_enlarge, flags_enlarge]
  | load => exact congrArg (fun v => Plan.commit { taken := 1, added := [v] }) (Tape.word_extend ..)
  | printString =>
    have hregion := addressOf_add_le hs rfl
    exact congrArg (fun bytes => Plan.ask (.writeText (String.ofList (Utf8.decodeLossy bytes)))
      fun _ => { taken := 2 }) (Tape.slice_extend hregion)
  | _ => rfl

/-- What an instruction writes stays in the region that it has been checked for. -/
theorem written_of_allows {start : Nat} {bytes : List UInt8} (ho : m.objection? op = none)
    (he : (m.intent op).Allows e) (hw : e.written = some (start, bytes)) :
    start + bytes.length ≤ m.tape.capacity := by
  obtain ⟨-, -, hs, -, -⟩ := objection?_eq_none_iff.1 ho
  by_cases hstore : op = .store
  · subst hstore
    cases he
    cases hw
    exact addressOf_add_le hs rfl
  by_cases hread : op = .readString
  · subst hread
    obtain ⟨line, rfl⟩ := he
    have hregion := addressOf_add_le hs rfl
    simp only [storeLine] at hw
    split_ifs at hw with hlong
    cases hw
    unfold addressOf at hlong hregion ⊢
    omega
  rw [(profile_of_allows he).written_eq hstore hread] at hw
  cases hw

theorem commit_enlarge (ho : m.objection? op = none) (he : (m.intent op).Allows e) :
    (m.enlarge extra room).commit op e = (m.commit op e).enlarge extra room := by
  cases hw : e.written with
  | none =>
    simp only [commit, hw]
    rfl
  | some region =>
    obtain ⟨start, bytes⟩ := region
    have hput : (m.tape.extend extra).put start bytes = (m.tape.put start bytes).extend extra :=
      Tape.put_extend (written_of_allows ho he hw)
    simp only [commit, hw, enlarge, hput]
    rfl

/-! ### Steps and runs -/

theorem follow_enlarge (c : κ)
    (h : ∀ f, m.objection? op = some f → ¬ (f.kind = .bounds ∨ f.kind = .stackOverflow)) :
    (m.enlarge extra room).follow op c =
      ((m.follow op c).1.enlarge extra room, (m.follow op c).2) := by
  have ho' : (m.enlarge extra room).objection? op = m.objection? op := objection?_enlarge h
  cases ho : m.objection? op with
  | some f =>
    rw [follow_of_objection (ho'.trans ho), follow_of_objection ho]
    rfl
  | none =>
    have hi' : (m.enlarge extra room).intent op = m.intent op := intent_enlarge ho
    cases hi : m.intent op with
    | commit e =>
      have he : (m.intent op).Allows e := by rw [hi]; rfl
      rw [follow_of_commit (ho'.trans ho) (hi'.trans hi), follow_of_commit ho hi,
        commit_enlarge ho he]
    | ask r effect =>
      rcases hr : Console.respond r c with ⟨e | a, c'⟩
      · rw [follow_of_refusal (ho'.trans ho) (hi'.trans hi) hr, follow_of_refusal ho hi hr]
        rfl
      · have he : (m.intent op).Allows (effect a) := by rw [hi]; exact ⟨a, rfl⟩
        rw [follow_of_answer (ho'.trans ho) (hi'.trans hi) hr, follow_of_answer ho hi hr,
          commit_enlarge ho he]

/-- **A larger machine makes the same step**, unless the machine is outgrown by it. -/
theorem step_enlarge (hm : m.WithinLimits) (hmax : m.tape.capacity + extra ≤ Word.maxValue) (c : κ)
    (h : ¬ (m.step c).1.Outgrown) :
    (m.enlarge extra room).step c = ((m.step c).1.enlarge extra room, (m.step c).2) := by
  have hm' : (m.enlarge extra room).WithinLimits := hm.enlarge hmax
  by_cases hs : m.status = .running
  · have hs' : (m.enlarge extra room).status = .running := hs
    rcases Nat.eq_or_lt_of_le hm.ip_le with heq | hlt
    · rw [step_of_runsOff hs heq] at h
      exact absurd (.inr ⟨rfl, heq⟩) h
    have hlt' : (m.enlarge extra room).ip < (m.enlarge extra room).tape.capacity := by
      rw [capacity_enlarge]
      exact Nat.lt_add_right extra hlt
    cases hb : Opcode.ofByte? (m.tape.cell m.ip) with
    | none =>
      have hcell : (m.enlarge extra room).tape.cell (m.enlarge extra room).ip =
          m.tape.cell m.ip := cell_enlarge _
      rw [step_of_unknown hs hlt hb, step_of_unknown hs' hlt' (by rw [hcell, hb]), hcell]
      rfl
    | some op =>
      have hf : m.Fetches op := ⟨hlt, hb⟩
      have hf' : (m.enlarge extra room).Fetches op := by
        refine ⟨hlt', ?_⟩
        rw [cell_enlarge]
        exact hb
      rw [step_of_fetches hm hs hf] at h ⊢
      rw [step_of_fetches hm' hs' hf']
      refine follow_enlarge (m := m.count) c fun f ho hk => ?_
      rw [follow_of_objection ho] at h
      exact h (.inl ⟨f, rfl, hk⟩)
  · have hs' : (m.enlarge extra room).status ≠ .running := hs
    rw [step_of_stopped hs, step_of_stopped hs']

theorem Outgrown.status_ne_running (h : m.Outgrown) : m.status ≠ .running := by
  rcases h with ⟨f, hf, -⟩ | ⟨hh, -⟩
  · simp [hf]
  · simp [hh]

theorem stepN_enlarge (hm : m.Conforms config) (hmax : m.tape.capacity + extra ≤ Word.maxValue)
    (c : κ) {n : Nat} (h : ¬ (stepN n m c).1.Outgrown) :
    stepN n (m.enlarge extra room) c = ((stepN n m c).1.enlarge extra room, (stepN n m c).2) := by
  induction n with
  | zero => rfl
  | succ n ih =>
    -- a machine that has been outgrown has stopped for good
    have hn : ¬ (stepN n m c).1.Outgrown := by
      intro hout
      rw [stepN_of_stopped_of_le hout.status_ne_running (Nat.le_succ n)] at h
      exact h hout
    have hcapacity : (stepN n m c).1.tape.capacity = m.tape.capacity :=
      (hm.stepN c n).capacity_eq.trans hm.capacity_eq.symm
    rw [stepN_succ] at h ⊢
    rw [stepN_succ, ih hn]
    exact step_enlarge (hm.stepN c n).withinLimits (by rwa [hcapacity]) _ h

/-! ### Loading -/

theorem load_enlarge {image : Array UInt8} {m' : Machine} (h : m.load image = .ok m') :
    (m.enlarge extra room).load image = .ok (m'.enlarge extra room) := by
  obtain ⟨tape, ht, rfl⟩ := exists_restart_of_load h
  have ht' : (m.enlarge extra room).tape.load image = .ok (tape.extend extra) := Tape.load_extend ht
  rw [load_of_ok ht']
  rfl

/-- A new machine is an enlarged form of every smaller one. -/
theorem new_eq_enlarge {capacity capacity' limit limit' : Nat} (hc : capacity ≤ capacity')
    (hmax : capacity' ≤ Word.maxValue) (hl : limit ≤ limit') :
    new ⟨capacity', limit'⟩ =
      (new ⟨capacity, limit⟩).enlarge (capacity' - capacity) (limit' - limit) := by
  have htape : Tape.blank capacity' = (Tape.blank capacity).extend (capacity' - capacity) := by
    simp [Tape.blank, Tape.extend, Nat.add_sub_cancel' hc]
  have hstack : Stack.empty limit' = (Stack.empty limit).widen (limit' - limit) :=
    Stack.ext rfl (Nat.add_sub_cancel' hl).symm
  have hcap' : Config.capacity ⟨capacity', limit'⟩ = capacity' := Nat.min_eq_left hmax
  have hcap : Config.capacity ⟨capacity, limit⟩ = capacity := Nat.min_eq_left (hc.trans hmax)
  simp only [new, enlarge, hcap, hcap', htape, hstack]

end Machine

/-! ### What the console sees -/

/-- A console together with the requests that have been made to it, oldest first. -/
structure Recorder (κ : Type) where
  console : κ
  requests : List Request := []

namespace Recorder

variable {κ : Type} [Console κ]

instance : Console (Recorder κ) where
  respond r c :=
    let (answer, console) := Console.respond r c.console
    (answer, ⟨console, c.requests ++ [r]⟩)

/-- Recording the requests does not change the answers. -/
theorem bisimulation_console :
    Console.Bisimulation fun (c : κ) (d : Recorder κ) => d.console = c := by
  rintro r c d rfl
  exact ⟨rfl, rfl⟩

end Recorder

namespace Machine

variable {κ : Type} [Console κ]

/-- **Enlarging a machine never changes a run that fitted.**  Take an image that fits on a tape, a
tape that is at least as long and a stack that may be at least as deep.  Unless the smaller machine
has been outgrown after some number of steps, the larger one is in the same state then, its console
is in the same state and has been asked the same, and its tape is the smaller one with zeros behind
it. -/
theorem enlarging_keeps_run {capacity capacity' limit limit' : Nat} (hc : capacity ≤ capacity')
    (hmax : capacity' ≤ 2147483647) (hl : limit ≤ limit') {image : Array UInt8}
    (hsize : image.size ≤ capacity) (c : κ) (n : Nat) :
    ∃ small large : Machine,
      (new ⟨capacity, limit⟩).load image = .ok small ∧
      (new ⟨capacity', limit'⟩).load image = .ok large ∧
      let run := stepN n small c
      let run' := stepN n large c
      (¬ run.1.Outgrown →
        run'.1.status = run.1.status ∧ run'.1.ip = run.1.ip ∧ run'.1.steps = run.1.steps ∧
        run'.1.stack.entries = run.1.stack.entries ∧ run'.1.flags = run.1.flags ∧
        run'.2 = run.2 ∧
        (stepN n large (Recorder.mk c [])).2.requests =
          (stepN n small (Recorder.mk c [])).2.requests ∧
        run'.1.tape.cells =
          run.1.tape.cells ++ Array.replicate (capacity' - capacity) 0) := by
  have hcap : (new ⟨capacity, limit⟩).tape.capacity = capacity :=
    (Tape.capacity_blank _).trans (Nat.min_eq_left (hc.trans hmax))
  have ht : (new ⟨capacity, limit⟩).tape.load image = .ok _ := if_pos (by rwa [hcap])
  have hload := load_of_ok ht
  generalize (new ⟨capacity, limit⟩).restart _ = small at hload
  have hlarge : (new ⟨capacity', limit'⟩).load image =
      .ok (small.enlarge (capacity' - capacity) (limit' - limit)) := by
    rw [new_eq_enlarge hc hmax hl]
    exact load_enlarge hload
  have hm : small.Conforms ⟨capacity, limit⟩ := conforms_new.load hload
  have hroom : small.tape.capacity + (capacity' - capacity) ≤ Word.maxValue := by
    have hsmall : small.tape.capacity = capacity :=
      hm.capacity_eq.trans (Nat.min_eq_left (hc.trans hmax))
    rw [hsmall, Nat.add_sub_cancel' hc]
    exact hmax
  refine ⟨small, _, hload, hlarge, ?_⟩
  intro run run' hfits
  have hrun : run' = _ := stepN_enlarge hm hroom c hfits
  -- the recorder is asked the same, because the machine cannot tell it from the console itself
  have hrecorded : ¬ (stepN n small (Recorder.mk c [])).1.Outgrown := by
    rw [← (stepN_eq_of_bisimulation Recorder.bisimulation_console hm rfl n).1]
    exact hfits
  rw [hrun, stepN_enlarge hm hroom (Recorder.mk c []) hrecorded]
  exact ⟨rfl, rfl, rfl, rfl, rfl, rfl, rfl, rfl⟩

/-- A program that writes the byte of `HALT` behind its last instruction. -/
def selfEndingProgram : Array UInt8 := #[0x01, 11, 0, 0, 0, 0x01, 0xff, 0, 0, 0, 0x05]

/-- A machine that is just large enough for that program. -/
def selfEndingMachine : Machine := (new ⟨15, 2⟩).loadOrKeep selfEndingProgram

/-- The program ends on a machine that is just large enough, and so it ends in the same state on one
with a byte and an entry more. -/
theorem enlarging_keeps_run_self_ending :
    ∃ large : Machine,
      (new ⟨15, 2⟩).load selfEndingProgram = .ok selfEndingMachine ∧
      (new ⟨16, 3⟩).load selfEndingProgram = .ok large ∧
      ¬ (stepN 4 selfEndingMachine (Script.ofLines [])).1.Outgrown ∧
      (stepN 4 large (Script.ofLines [])).1.status = .halted ∧
      (stepN 4 large (Script.ofLines [])).1.ip = 11 ∧
      (stepN 4 large (Script.ofLines [])).1.tape.cells =
        selfEndingProgram ++ #[0xff, 0, 0, 0, 0] := by
  obtain ⟨small, large, hsmall, hlarge, hrun⟩ :=
    enlarging_keeps_run (by decide : 15 ≤ 16) (by decide) (by decide : 2 ≤ 3)
      (by decide : selfEndingProgram.size ≤ 15) (Script.ofLines []) 4
  have hload : (new ⟨15, 2⟩).load selfEndingProgram = .ok selfEndingMachine := rfl
  cases hload.symm.trans hsmall
  have hhalted : (stepN 4 selfEndingMachine (Script.ofLines [])).1.status = .halted := by rfl
  have hfits : ¬ (stepN 4 selfEndingMachine (Script.ofLines [])).1.Outgrown := by
    rintro (⟨f, hf, -⟩ | ⟨-, hend⟩)
    · cases hhalted.symm.trans hf
    · exact absurd hend (by decide)
  obtain ⟨hstatus, hip, -, -, -, -, -, hcells⟩ := hrun hfits
  exact ⟨large, hload, hlarge, hfits, hstatus.trans hhalted, hip.trans (by rfl),
    hcells.trans (by rfl)⟩

end Machine

end TapeMachine
