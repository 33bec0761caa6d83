import TapeMachine.Proofs.Completion
import TapeMachine.Proofs.Runs

/-!
# What passes between a machine and its console

A step makes at most one request, and it makes it when there is nothing left to object to
(`Machine.Asks`).  So it leaves the console as the answer to that request leaves it
(`Machine.console_step_of_asks`), or as it was (`Machine.console_step_of_not_asks`), and after the
answer nothing can go wrong any more.

For a script this means that no line is lost and nothing is printed by an instruction that fails,
save a line that was read as a number and is none (`Machine.script_effects`).
-/

namespace TapeMachine

/-! ### Requests to a script -/

/-- What a request prints, if it is one to print. -/
def Request.event? : Request → Option Event
  | writeNumber v => some (.number v)
  | writeText t => some (.text t)
  | _ => none

/-- The only thing wrong with a line can be its form. -/
theorem malformed_of_parseNumber {line : String} {e : ConsoleError}
    (h : parseNumber line = .error e) : ∃ expected, e = .malformed line expected := by
  unfold parseNumber at h
  split at h
  · split_ifs at h
    cases h
    exact ⟨_, rfl⟩
  · cases h
    exact ⟨_, rfl⟩

namespace Script

variable {r : Request} {c c' c'' : Script} {e : ConsoleError}

/-- A script records what it is asked to print, and every other request takes a line from it, if
there is one. -/
theorem console_respond (r : Request) (c : Script) :
    (Console.respond r c).2 =
      r.event?.elim { c with unread := c.unread.tail }
        fun e => { c with events := c.events.push e } := by
  cases r with
  | readNumber | readText =>
    obtain ⟨unread, events⟩ := c
    cases unread <;> rfl
  | writeNumber | writeText => rfl

/-- A script refuses only to read, for want of a line or because the line is no number. -/
theorem eq_of_refusal (h : (Console.respond r c).1 = .error e) :
    r.event? = none ∧ (c.unread = [] ∨ ∃ line expected, e = .malformed line expected) := by
  obtain ⟨unread, events⟩ := c
  cases unread with
  | nil =>
    cases r with
    | writeNumber | writeText => cases h
    | readNumber | readText => exact ⟨rfl, .inl rfl⟩
  | cons line rest =>
    cases r with
    | writeNumber | writeText | readText => cases h
    | readNumber =>
      obtain ⟨expected, he⟩ := malformed_of_parseNumber h
      exact ⟨rfl, .inr ⟨line, expected, he⟩⟩

/-- One state of a script may come after another: the events are those before and possibly more,
and the lines are those that were left, or the last of them. -/
structure Continues (c c' : Script) : Prop where
  events : c.events.toList <+: c'.events.toList
  unread : c'.unread <:+ c.unread

theorem Continues.refl (c : Script) : c.Continues c := ⟨List.prefix_rfl, List.suffix_rfl⟩

theorem Continues.trans (h : c.Continues c') (h' : c'.Continues c'') : c.Continues c'' :=
  ⟨h.events.trans h'.events, h'.unread.trans h.unread⟩

theorem continues_respond (r : Request) (c : Script) : c.Continues (Console.respond r c).2 := by
  rw [console_respond]
  cases r.event? with
  | none => exact ⟨List.prefix_rfl, List.tail_suffix _⟩
  | some e =>
    refine ⟨?_, List.suffix_rfl⟩
    simp

end Script

namespace Machine

variable {κ : Type} [Console κ] {config : Config} {m : Machine} {op : Opcode} {r : Request}

/-! ### The request of a step -/

/-- The next step is going to make the request `r`. -/
def Asks (m : Machine) (r : Request) : Prop :=
  m.status = .running ∧ ∃ op, m.Fetches op ∧ m.objection? op = none ∧ m.request? op = some r

/-- A step that makes a request leaves the rest to the answer. -/
theorem step_of_asks (hm : m.WithinLimits) (h : m.Asks r) (c : κ) :
    (∃ op e, (Console.respond r c).1.isOk ∧
      m.step c = (m.count.commit op e, (Console.respond r c).2)) ∨
    ∃ e, (Console.respond r c).1 = .error e ∧
      m.step c = (m.count.fail e.toFault, (Console.respond r c).2) := by
  obtain ⟨hs, op, hf, ho, hreq⟩ := h
  obtain ⟨effect, hi⟩ := exists_intent_of_request? hreq
  rw [step_of_fetches hm hs hf]
  rcases hr : Console.respond r c with ⟨e | a, c'⟩
  · exact .inr ⟨e, rfl, follow_of_refusal (m := m.count) ho hi hr⟩
  · exact .inl ⟨op, effect a, rfl, follow_of_answer (m := m.count) ho hi hr⟩

theorem console_step_of_asks (hm : m.WithinLimits) (h : m.Asks r) (c : κ) :
    (m.step c).2 = (Console.respond r c).2 := by
  rcases step_of_asks hm h c with ⟨op, e, -, hstep⟩ | ⟨e, -, hstep⟩
  · rw [hstep]
  · rw [hstep]

/-- A step that makes a request faults over the refusal of it only. -/
theorem refusal_of_fault (hm : m.WithinLimits) (h : m.Asks r) {c : κ} {f : Fault}
    (hf : (m.step c).1.status = .faulted f) :
    ∃ e, (Console.respond r c).1 = .error e ∧ f = e.toFault := by
  rcases step_of_asks hm h c with ⟨op, e, -, hstep⟩ | ⟨e, he, hstep⟩
  · rw [hstep] at hf
    exact (status_ne_running_of_commit hf h.1).elim
  · rw [hstep] at hf
    cases hf
    exact ⟨e, he, rfl⟩

/-- A step that makes no request leaves the console as it is. -/
theorem console_step_of_not_asks (hm : m.WithinLimits) (h : ∀ r, ¬ m.Asks r) (c : κ) :
    (m.step c).2 = c := by
  by_cases hs : m.status = .running
  · have ht := transition_step hm hs c
    generalize m.step c = s at ht ⊢
    cases ht with
    | runsOff | unknown | objected | committed => rfl
    | answered hf ho hi => exact absurd ⟨hs, _, hf, ho, request?_of_intent hi⟩ (h _)
    | refused hf ho hi => exact absurd ⟨hs, _, hf, ho, request?_of_intent hi⟩ (h _)
  · rw [step_of_stopped hs]

/-- A step carries a script on. -/
theorem continues_step (hm : m.WithinLimits) (c : Script) : c.Continues (m.step c).2 := by
  by_cases h : ∃ r, m.Asks r
  · obtain ⟨r, hr⟩ := h
    rw [console_step_of_asks hm hr]
    exact Script.continues_respond r c
  · rw [console_step_of_not_asks hm (not_exists.1 h)]
    exact .refl c

theorem continues_stepN (hm : m.Conforms config) (c : Script) {i j : Nat} (hle : i ≤ j) :
    (stepN i m c).2.Continues (stepN j m c).2 := by
  induction hle with
  | refl => exact .refl _
  | @step j _ ih =>
    rw [stepN_succ]
    exact ih.trans (continues_step (hm.stepN c j).withinLimits _)

/-! ### The instructions behind the requests -/

/-- The text in the region that the two top entries of the stack denote. -/
def regionText (m : Machine) : String :=
  String.ofList (Utf8.decodeLossy
    (m.tape.slice (addressOf (m.operand 1)) (addressOf (m.operand 0))))

/-- The next step executes an instruction that prints `e` and does not fault. -/
def Prints (m : Machine) (c : κ) (e : Event) : Prop :=
  m.Completes c .printInt ∧ e = .number (m.operand 0) ∨
    m.Completes c .printString ∧ e = .text m.regionText

/-- The instruction at the instruction pointer reads a line, and what it needs for that is there:
room for a number, or a region for a text. -/
def ReadyToRead (m : Machine) : Prop :=
  m.Fetches .readInt ∧ m.stack.depth < m.stack.limit ∨
    m.Fetches .readString ∧ 2 ≤ m.stack.depth ∧ ¬ m.Astray .readString

/-- A step prints one thing only. -/
theorem Prints.unique {c : κ} {e e' : Event} (h : m.Prints c e) (h' : m.Prints c e') : e = e' := by
  rcases h with ⟨hc, rfl⟩ | ⟨hc, rfl⟩ <;> rcases h' with ⟨hc', rfl⟩ | ⟨hc', rfl⟩
  · rfl
  · cases hc.2.1.unique hc'.2.1
  · cases hc.2.1.unique hc'.2.1
  · rfl

/-- An instruction that prints does not read. -/
theorem Prints.not_readyToRead {c : κ} {e : Event} (h : m.Prints c e) : ¬ m.ReadyToRead := by
  rintro (⟨hf, -⟩ | ⟨hf, -⟩)
  · rcases h with ⟨hc, -⟩ | ⟨hc, -⟩ <;> cases hc.2.1.unique hf
  · rcases h with ⟨hc, -⟩ | ⟨hc, -⟩ <;> cases hc.2.1.unique hf

theorem asks_of_prints {c : κ} {e : Event} (hm : m.WithinLimits) (h : m.Prints c e) :
    ∃ r, m.Asks r := by
  rcases h with ⟨hc, -⟩ | ⟨hc, -⟩
  · exact ⟨_, hc.1, _, hc.2.1, (hc.exists_effect hm).1, rfl⟩
  · exact ⟨_, hc.1, _, hc.2.1, (hc.exists_effect hm).1, rfl⟩

theorem asks_of_readyToRead (hs : m.status = .running) (h : m.ReadyToRead) :
    ∃ r, m.Asks r := by
  rcases h with ⟨hf, hroom⟩ | ⟨hf, hu, hstray⟩
  · have ho : m.objection? .readInt = none :=
      objection?_eq_none_iff.2 ⟨rfl, rfl, rfl, rfl, overflow?_eq_none_iff.2 fun _ => hroom⟩
    exact ⟨_, hs, _, hf, ho, rfl⟩
  · rw [← stray?_ne_none_iff_astray rfl, not_not] at hstray
    exact ⟨_, hs, _, hf, objection?_eq_none_of_operands rfl rfl rfl hu hstray, rfl⟩

/-- A request to a script is made by an instruction that prints and does not fault, or by one that
is ready to read. -/
theorem Asks.instruction (hm : m.WithinLimits) (h : m.Asks r) (c : Script) :
    (∃ e, r.event? = some e ∧ m.Prints c e) ∨ r.event? = none ∧ m.ReadyToRead := by
  have hcompletes : ∀ {op e}, m.Fetches op → r.event? = some e → m.Completes c op := by
    intro op e hf he
    refine ⟨h.1, hf, fun f hfault => ?_⟩
    obtain ⟨_, hrefused, -⟩ := refusal_of_fault hm h hfault
    rw [(Script.eq_of_refusal hrefused).1] at he
    cases he
  obtain ⟨-, op, hf, ho, hreq⟩ := h
  obtain ⟨-, hu, hstray, -, hover⟩ := objection?_eq_none_iff.1 ho
  cases op with
  | printInt =>
    cases hreq
    exact .inl ⟨_, rfl, .inl ⟨hcompletes hf rfl, rfl⟩⟩
  | printString =>
    cases hreq
    exact .inl ⟨_, rfl, .inr ⟨hcompletes hf rfl, rfl⟩⟩
  | readInt =>
    cases hreq
    exact .inr ⟨rfl, .inl ⟨hf, overflow?_eq_none_iff.1 hover rfl⟩⟩
  | readString =>
    cases hreq
    refine .inr ⟨rfl, .inr ⟨hf, underflow?_eq_none_iff.1 hu, ?_⟩⟩
    rw [← stray?_ne_none_iff_astray rfl, not_not]
    exact hstray
  | _ => cases hreq

/-- The three things a step can do to a script: it prints, it reads, or it leaves the script alone,
each under its own condition. -/
theorem script_step_cases (hm : m.WithinLimits) (hs : m.status = .running) (c : Script) :
    (∃ e, m.Prints c e ∧ (m.step c).2 = { c with events := c.events.push e }) ∨
    (∃ line rest, m.ReadyToRead ∧ c.unread = line :: rest ∧
      (m.step c).2 = { c with unread := rest }) ∨
    (∀ e, ¬ m.Prints c e) ∧ (m.ReadyToRead → c.unread = []) ∧ (m.step c).2 = c := by
  by_cases hasks : ∃ r, m.Asks r
  · obtain ⟨r, hr⟩ := hasks
    have hconsole : (m.step c).2 = _ := (console_step_of_asks hm hr c).trans (c.console_respond r)
    rcases hr.instruction hm c with ⟨e, he, hprints⟩ | ⟨hnone, hready⟩
    · rw [he, Option.elim_some] at hconsole
      exact .inl ⟨e, hprints, hconsole⟩
    · rw [hnone, Option.elim_none] at hconsole
      cases hunread : c.unread with
      | cons line rest =>
        rw [hunread, List.tail_cons] at hconsole
        exact .inr (.inl ⟨line, rest, hready, rfl, hconsole⟩)
      | nil =>
        -- the read is refused for want of a line
        rw [hunread, List.tail_nil, ← hunread] at hconsole
        exact .inr (.inr ⟨fun e he => he.not_readyToRead hready, fun _ => rfl, hconsole⟩)
  · have hnone := not_exists.1 hasks
    refine .inr (.inr ⟨fun e he => ?_, fun hready => ?_, console_step_of_not_asks hm hnone c⟩)
    · obtain ⟨r, hr⟩ := asks_of_prints hm he
      exact hnone r hr
    · obtain ⟨r, hr⟩ := asks_of_readyToRead hs hready
      exact absurd hr (hnone r)

/-- A step that faults prints nothing, and it has read a line only if that was the wrong one. -/
theorem script_step_of_fault (hm : m.WithinLimits) {c : Script} {f : Fault}
    (h : (m.step c).1.status = .faulted f) :
    (m.step c).2.events = c.events ∧ (f.kind ≠ .malformedInput → (m.step c).2 = c) := by
  by_cases hasks : ∃ r, m.Asks r
  · obtain ⟨r, hr⟩ := hasks
    obtain ⟨e, he, rfl⟩ := refusal_of_fault hm hr h
    obtain ⟨hnone, hwhy⟩ := Script.eq_of_refusal he
    rw [console_step_of_asks hm hr, c.console_respond, hnone, Option.elim_none]
    refine ⟨rfl, fun hk => ?_⟩
    rcases hwhy with hunread | ⟨line, expected, rfl⟩
    · rw [hunread, List.tail_nil, ← hunread]
    · exact absurd rfl hk
  · rw [console_step_of_not_asks hm (not_exists.1 hasks)]
    exact ⟨rfl, fun _ => rfl⟩

/-- **What a step does to a script.**  A step of a reachable running machine prints one thing and
reads nothing, if it executes an instruction that prints and does not fault; or it uses up one line
and prints nothing, if the instruction reads, has what it needs and there is a line, whether or not
the line turns out to be what was asked for; or it leaves the script exactly as it was.  A step that
faults prints nothing, and it has used up a line only if it faults over that line.  In a run of any
length, what has been printed stays at the front of what is printed later, and the lines that are
left are the last of those that were there. -/
theorem script_effects (h : Reachable config m) (c : Script) :
    (m.status = .running →
      ((∃ e, m.Prints c e ∧ (m.step c).2 = { c with events := c.events.push e }) ∨
        (∃ line rest, m.ReadyToRead ∧ c.unread = line :: rest ∧
          (m.step c).2 = { c with unread := rest }) ∨
        (∀ e, ¬ m.Prints c e) ∧ (m.ReadyToRead → c.unread = []) ∧ (m.step c).2 = c) ∧
      ∀ f, (m.step c).1.status = .faulted f →
        (m.step c).2.events = c.events ∧ (f.kind ≠ .malformedInput → (m.step c).2 = c)) ∧
    ∀ i j, i ≤ j →
      (stepN i m c).2.events.toList <+: (stepN j m c).2.events.toList ∧
        (stepN j m c).2.unread <:+ (stepN i m c).2.unread := by
  have hc := h.conforms
  have hm := hc.withinLimits
  refine ⟨fun hs => ⟨script_step_cases hm hs c, fun f hf => script_step_of_fault hm hf⟩, ?_⟩
  intro i j hle
  have hcontinues := continues_stepN hc c hle
  exact ⟨hcontinues.events, hcontinues.unread⟩

/-- A machine that is about to print a number, and to read one then. -/
def promptingMachine : Machine :=
  (stepN 1 ((new { tapeCapacity := 7, maxStackDepth := 1 }).loadOrKeep
    #[0x01, 5, 0, 0, 0, 0x15, 0x17]) (Script.ofLines [])).1

/-- A script on which something has been printed, and whose next line is no number. -/
def promptingScript : Script := { unread := ["x", "7"], events := #[.text "n?"] }

/-- The number is printed behind what has been printed before, and takes no line.  The line that is
no number is used up by the step that faults over it, and nothing is printed. -/
theorem script_effects_print_and_malformed_line :
    Reachable { tapeCapacity := 7, maxStackDepth := 1 } promptingMachine ∧
      promptingMachine.status = .running ∧
      promptingMachine.Prints promptingScript (.number 5) ∧
      (promptingMachine.step promptingScript).2 =
        { unread := ["x", "7"], events := #[.text "n?", .number 5] } ∧
      (promptingMachine.step promptingScript).1.ReadyToRead ∧
      (stepN 2 promptingMachine promptingScript).2 =
        { unread := ["7"], events := #[.text "n?", .number 5] } ∧
      ∃ f, (stepN 2 promptingMachine promptingScript).1.status = .faulted f ∧
        f.kind = .malformedInput := by
  have h : Reachable { tapeCapacity := 7, maxStackDepth := 1 } promptingMachine :=
    (Reachable.new.load _).stepN _ 1
  have hs : promptingMachine.status = .running := by rfl
  have hs' : (promptingMachine.step promptingScript).1.status = .running := by rfl
  have hprints : promptingMachine.Prints promptingScript (.number 5) := by
    refine .inl ⟨⟨hs, ⟨by decide, by rfl⟩, fun f hfault => ?_⟩, by rfl⟩
    cases hs'.symm.trans hfault
  have hready : (promptingMachine.step promptingScript).1.ReadyToRead :=
    .inl ⟨⟨by decide, by rfl⟩, by decide⟩
  have hprinted : (promptingMachine.step promptingScript).2 =
      { unread := ["x", "7"], events := #[.text "n?", .number 5] } := by
    rcases ((script_effects h promptingScript).1 hs).1 with
      ⟨e, he, hstep⟩ | ⟨line, rest, hread, -⟩ | ⟨hnone, -⟩
    · rw [he.unique hprints] at hstep
      exact hstep
    · exact absurd hread hprints.not_readyToRead
    · exact absurd hprints (hnone _)
  refine ⟨h, hs, hprints, hprinted, hready, ?_, _, by rfl, by rfl⟩
  rcases ((script_effects (h.step promptingScript) (promptingMachine.step promptingScript).2).1
      hs').1 with ⟨e, he, -⟩ | ⟨line, rest, -, hunread, hstep⟩ | ⟨-, hnone, -⟩
  · exact absurd hready he.not_readyToRead
  · rw [hprinted] at hunread
    cases hunread
    refine hstep.trans ?_
    rw [hprinted]
  · have hempty := hnone hready
    rw [hprinted] at hempty
    cases hempty

end Machine

end TapeMachine
