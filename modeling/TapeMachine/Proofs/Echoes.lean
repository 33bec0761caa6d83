import TapeMachine.Proofs.Frames

/-!
# Lines that are read and printed again

`READ_STRING` counts a line in bytes.  A line that fits is stored as it is, with its length on the
stack in the place of the operands (`Machine.AtRegion.step_read`), and a `PRINT_STRING` of as many
bytes prints the line again (`Machine.AtRegion.step_print`).  A line that does not fit is not
stored, and what is left on the stack is no length that could be printed
(`Machine.AtRegion.step_print_of_neg`).

What happens in between makes no difference, as long as it leaves the stored bytes alone
(`Machine.lines_are_echoed`).
-/

namespace TapeMachine

namespace Machine

/-- The machine is running and about to execute `op` with the operands `a` and `n`, an address and a
length, and with `rest` below them. -/
structure AtRegion (m : Machine) (op : Opcode) (a n : Word) (rest : List Word) : Prop where
  status_eq : m.status = .running
  fetches : m.Fetches op
  entries_eq : m.stack.entries = n :: a :: rest

variable {config : Config} {m m' : Machine} {op : Opcode} {a n : Word} {rest : List Word}
  {c : Script} {line : String}

namespace AtRegion

theorem operand_zero (h : m.AtRegion op a n rest) : m.operand 0 = n := by
  rw [operand, Stack.entry, h.entries_eq]
  rfl

theorem operand_one (h : m.AtRegion op a n rest) : m.operand 1 = a := by
  rw [operand, Stack.entry, h.entries_eq]
  rfl

theorem two_le_depth (h : m.AtRegion op a n rest) : 2 ≤ m.stack.depth := by
  rw [m.stack.depth_eq, h.entries_eq]
  exact Nat.le_add_left 2 _

theorem entries_commit {e : Effect} (h : m.AtRegion op a n rest) (he : e.taken = 2) :
    (m.count.commit op e).stack.entries = e.added ++ rest := by
  change e.added ++ m.stack.entries.drop e.taken = _
  rw [he, h.entries_eq]
  rfl

/-- There is nothing to object to a region on the tape. -/
theorem objection?_eq_none (h : m.AtRegion op a n rest) (hop : op = .readString ∨ op = .printString)
    (hregion : 0 ≤ a.toInt ∧ 0 ≤ n.toInt ∧ a.toInt + n.toInt ≤ m.tape.capacity) :
    m.objection? op = none := by
  have hdepth := h.two_le_depth
  have hreach : m.tape.stray? (m.operand 1) (m.operand 0).toInt = none := by
    rw [h.operand_zero, h.operand_one, Tape.stray?_eq_none_iff]
    omega
  rcases hop with rfl | rfl
  · exact objection?_eq_none_of_operands rfl rfl rfl hdepth hreach
  · exact objection?_eq_none_of_operands rfl rfl rfl hdepth hreach

theorem step_read {lines : List String} (hm : m.WithinLimits) (h : m.AtRegion .readString a n rest)
    (hregion : 0 ≤ a.toInt ∧ 0 ≤ n.toInt ∧ a.toInt + n.toInt ≤ m.tape.capacity)
    (hline : c.unread = line :: lines) :
    m.step c =
      (m.count.commit .readString (storeLine (addressOf a) (addressOf n) line),
        { c with unread := lines }) := by
  have hi : m.intent .readString = .ask .readText (storeLine (addressOf a) (addressOf n)) := by
    rw [intent, h.operand_zero, h.operand_one]
  have hr : Console.respond .readText c = (.ok line, { c with unread := lines }) := by
    obtain ⟨unread, events⟩ := c
    cases hline
    rfl
  have ho := h.objection?_eq_none (.inl rfl) hregion
  rw [step_of_answer hm h.status_eq h.fetches ho hi hr]

/-- A line that fits is stored, and its length takes the place of the operands. -/
theorem read_of_le (h : m.AtRegion .readString a n rest)
    (hregion : 0 ≤ a.toInt ∧ 0 ≤ n.toInt ∧ a.toInt + n.toInt ≤ m.tape.capacity)
    (hfits : (Utf8.encode line.toList).length ≤ n.toInt)
    (hm' : m.count.commit .readString (storeLine (addressOf a) (addressOf n) line) = m') :
    m.tape.Rewritten m'.tape a.toInt.toNat (Utf8.encode line.toList) ∧
      m'.stack.entries = Int32.ofNat (Utf8.encode line.toList).length :: rest := by
  rw [storeLine_of_le (by unfold addressOf; omega)] at hm'
  subst hm'
  refine ⟨tape_commit_of_written (m := m.count) rfl ?_, h.entries_commit rfl⟩
  change a.toInt.toNat + _ ≤ m.tape.capacity
  omega

/-- A line that does not fit leaves the tape as it is and -1 on the stack. -/
theorem read_of_lt (h : m.AtRegion .readString a n rest) (hn : 0 ≤ n.toInt)
    (hlong : n.toInt < (Utf8.encode line.toList).length)
    (hm' : m.count.commit .readString (storeLine (addressOf a) (addressOf n) line) = m') :
    m'.tape = m.tape ∧ m'.stack.entries = -1 :: rest := by
  rw [storeLine_of_lt (by unfold addressOf; omega)] at hm'
  subst hm'
  exact ⟨tape_commit_of_not_written rfl, h.entries_commit rfl⟩

/-- Printing the bytes of a line prints the line. -/
theorem step_print (hm : m.WithinLimits) (h : m.AtRegion .printString a n rest)
    (hstart : 0 ≤ a.toInt) (hlength : n.toInt = (Utf8.encode line.toList).length)
    (hend : a.toInt + n.toInt ≤ m.tape.capacity)
    (hbytes : m.tape.Holds (addressOf a) (Utf8.encode line.toList)) (c : Script) :
    m.step c =
      (m.count.commit .printString { taken := 2 },
        { c with events := c.events.push (.text line) }) := by
  have hi : m.intent .printString = .ask (.writeText line) fun _ => { taken := 2 } := by
    refine intent_printString ?_ ?_
    · rw [h.operand_zero, addressOf, hlength]
      rfl
    · rwa [h.operand_one]
  have hr : Console.respond (.writeText line) c =
      (.ok (), { c with events := c.events.push (.text line) }) := rfl
  have ho := h.objection?_eq_none (.inr rfl) ⟨hstart, by omega, hend⟩
  rw [step_of_answer hm h.status_eq h.fetches ho hi hr]

/-- A negative length cannot be printed. -/
theorem step_print_of_neg {κ : Type} [Console κ] (hm : m.WithinLimits)
    (h : m.AtRegion .printString a n rest) (hneg : n.toInt < 0) (c : κ) :
    m.step c = (m.count.fail (.bounds (a.toInt + n.toInt) 0 m.tape.capacity), c) := by
  have hstray : m.stray? .printString = some (.bounds (a.toInt + n.toInt) 0 m.tape.capacity) := by
    rw [stray?_of_reach?_eq_some rfl, h.operand_zero, h.operand_one, Tape.stray?, if_pos hneg]
    rfl
  exact step_of_objection hm h.status_eq h.fetches
    (objection?_of_stray rfl h.two_le_depth hstray)

end AtRegion

theorem flow_storeLine (start length : Nat) (line : String) :
    (storeLine start length line).flow = .next := by
  simp only [storeLine]
  split <;> rfl

/-- **Lines are echoed.**  `READ_STRING` takes the next line off a script.  If its bytes fit into
the region, they are stored at the front of it, their number takes the place of the operands, and a
later `PRINT_STRING` of these bytes prints the line, if they are still there.  If they do not fit,
-1 takes the place of the operands and nothing is stored, and a later `PRINT_STRING` of -1 bytes
faults and prints nothing. -/
theorem lines_are_echoed {lines : List String} {c' : Script}
    (h : Reachable config m) (hread : m.AtRegion .readString a n rest)
    (hregion : 0 ≤ a.toInt ∧ 0 ≤ n.toInt ∧ a.toInt + n.toInt ≤ m.tape.capacity)
    (hline : c.unread = line :: lines) (hstep : m.step c = (m', c')) :
    m'.status = .running ∧ c' = { c with unread := lines } ∧
      ((Utf8.encode line.toList).length ≤ n.toInt →
        m.tape.Rewritten m'.tape a.toInt.toNat (Utf8.encode line.toList) ∧
        ∃ length : Word, length.toInt = (Utf8.encode line.toList).length ∧
          m'.stack.entries = length :: rest ∧
          ∀ k later console below, stepN k m' c' = (later, console) →
            later.AtRegion .printString a length below →
            (∀ i : Nat, a.toInt ≤ i → i < a.toInt + length.toInt →
              later.tape.cells[i]? = m'.tape.cells[i]?) →
            (later.step console).1.status = .running ∧
              (later.step console).2 =
                { console with events := console.events.push (.text line) }) ∧
      (n.toInt < (Utf8.encode line.toList).length →
        m'.tape = m.tape ∧ m'.stack.entries = -1 :: rest ∧
          ∀ k later console address below, stepN k m' c' = (later, console) →
            later.AtRegion .printString address (-1) below →
            (later.step console).1.status =
                .faulted (.bounds (address.toInt - 1) 0 m.tape.capacity) ∧
              (later.step console).2 = console) := by
  have hm := h.conforms.withinLimits
  have hlater : ∀ {k later console}, stepN k m' c' = (later, console) →
      later.WithinLimits ∧ later.tape.capacity = m.tape.capacity := by
    intro k later console hrun
    have hconforms : later.Conforms config := (h.conforms.of_step hstep).of_stepN hrun
    exact ⟨hconforms.withinLimits, hconforms.capacity_eq.trans h.conforms.capacity_eq.symm⟩
  rw [hread.step_read hm hregion hline] at hstep
  obtain ⟨hmachine, hconsole⟩ := Prod.mk.inj hstep
  refine ⟨?_, hconsole.symm, fun hfits => ?_, fun hlong => ?_⟩
  · rw [← hmachine]
    simp only [commit, flow_storeLine]
    exact hread.status_eq
  · obtain ⟨hrewritten, hentries⟩ := hread.read_of_le hregion hfits hmachine
    have hlength : (Int32.ofNat (Utf8.encode line.toList).length).toInt =
        (Utf8.encode line.toList).length := by
      have hmax := n.toInt_lt
      exact Int32.toInt_ofNat_of_lt (by omega)
    refine ⟨hrewritten, _, hlength, hentries, ?_⟩
    intro k later console below hrun hprint hsame
    obtain ⟨hlimits, hcapacity⟩ := hlater hrun
    have hbytes : later.tape.Holds (addressOf a) (Utf8.encode line.toList) := by
      intro j hj
      rw [hsame (addressOf a + j) (by unfold addressOf; omega) (by unfold addressOf; omega)]
      exact hrewritten.holds j hj
    rw [hprint.step_print hlimits hregion.1 hlength (by omega) hbytes]
    exact ⟨hprint.status_eq, rfl⟩
  · obtain ⟨htape, hentries⟩ := hread.read_of_lt hregion.2.1 hlong hmachine
    refine ⟨htape, hentries, ?_⟩
    intro k later console address below hrun hprint
    obtain ⟨hlimits, hcapacity⟩ := hlater hrun
    have hneg : (-1 : Word).toInt = -1 := by decide
    rw [hprint.step_print_of_neg hlimits (by omega), hcapacity, hneg]
    exact ⟨rfl, rfl⟩

/-- A machine that is about to read a line into a region of three bytes, and to print it then. -/
def echoingMachine : Machine :=
  (stepN 2 ((new { tapeCapacity := 23, maxStackDepth := 2 }).loadOrKeep
    #[0x01, 20, 0, 0, 0, 0x01, 3, 0, 0, 0, 0x18, 0x01, 20, 0, 0, 0, 0x0e, 0x16])
    (Script.ofLines [])).1

/-- A line of two characters and three bytes fits exactly, and one byte more is too long. -/
theorem lines_are_echoed_exact_fit :
    (stepN 4 echoingMachine (Script.ofLines ["é!"])).2.events = #[.text "é!"] ∧
      (stepN 4 echoingMachine (Script.ofLines ["é!!"])).1.status = .faulted (.bounds 19 0 23) ∧
      (stepN 4 echoingMachine (Script.ofLines ["é!!"])).2.events = #[] := by
  have h : Reachable { tapeCapacity := 23, maxStackDepth := 2 } echoingMachine :=
    (Reachable.new.load _).stepN _ 2
  have hread : echoingMachine.AtRegion .readString 20 3 [] := ⟨by rfl, ⟨by decide, by rfl⟩, by rfl⟩
  have hregion : 0 ≤ (20 : Word).toInt ∧ 0 ≤ (3 : Word).toInt ∧
      (20 : Word).toInt + (3 : Word).toInt ≤ echoingMachine.tape.capacity := by decide
  have hfits : (Utf8.encode "é!".toList).length ≤ (3 : Word).toInt := by decide +kernel
  have hlong : (3 : Word).toInt < (Utf8.encode "é!!".toList).length := by decide +kernel
  have hstep : ∀ (m : Machine) (c : Script), m.step c = ((m.step c).1, (m.step c).2) :=
    fun m c => rfl
  have hrun : ∀ (m : Machine) (c : Script),
      stepN 2 (m.step c).1 (m.step c).2 = ((stepN 3 m c).1, (stepN 3 m c).2) :=
    fun m c => rfl
  obtain ⟨-, -, hstored, -⟩ :=
    lines_are_echoed h hread hregion rfl (hstep _ (Script.ofLines ["é!"]))
  obtain ⟨-, length, hlength, -, hprints⟩ := hstored hfits
  obtain ⟨-, -, -, hkept⟩ :=
    lines_are_echoed h hread hregion rfl (hstep _ (Script.ofLines ["é!!"]))
  obtain ⟨-, -, hfaults⟩ := hkept hlong
  have hthree : length = 3 := by
    rw [← Int32.toInt_inj, hlength]
    decide +kernel
  have hprint : (stepN 3 echoingMachine (Script.ofLines ["é!"])).1.AtRegion .printString 20 length
      [] := by
    rw [hthree]
    exact ⟨by rfl, ⟨by decide, by rfl⟩, by rfl⟩
  have hprint' : (stepN 3 echoingMachine (Script.ofLines ["é!!"])).1.AtRegion .printString 20 (-1)
      [] :=
    ⟨by rfl, ⟨by decide, by rfl⟩, by rfl⟩
  have hsame : (stepN 3 echoingMachine (Script.ofLines ["é!"])).1.tape =
      (echoingMachine.step (Script.ofLines ["é!"])).1.tape := by decide +kernel
  have hecho := hprints 2 _ _ [] (hrun _ _) hprint fun i _ _ => by rw [hsame]
  have hfault := hfaults 2 _ _ 20 [] (hrun _ _) hprint'
  rw [stepN_succ 3, stepN_succ 3, hecho.2, hfault.1, hfault.2]
  exact ⟨by rfl, by rfl, by rfl⟩

end Machine

end TapeMachine
