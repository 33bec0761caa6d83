import Mathlib.Data.List.Basic
import Mathlib.Data.List.TakeDrop
import Mathlib.Data.List.TakeWhile
import TapeMachine.Console.Streams
import TapeMachine.Proofs.Lines
import TapeMachine.Proofs.Reachable
import TapeMachine.Proofs.Utf8

/-!
# Consoles that cannot be told apart

Two consoles agree when they answer every request alike and still agree afterwards
(`Console.Bisimulation`).  A machine cannot tell such consoles apart, over any number of steps
(`Machine.stepN_eq_of_bisimulation`).

A byte stream that holds a text and a script of the lines of that text are such a pair
(`Streams.bisimulation_follows`), although one finds its lines as they are asked for and the other
has been given them: line ends with a carriage return, a last line without a line end and the end
of the input come out the same.  So whole runs end in the same state and print the same
(`Machine.streams_agree_with_script`).
-/

namespace TapeMachine

/-! ### Lines of characters and lines of bytes -/

namespace Streams

variable {line bytes : List UInt8} {cs : List Char}

theorem splitLine_of_not_mem (h : newline ∉ bytes) (hne : bytes ≠ []) :
    splitLine bytes = some (bytes, []) := by
  have hall : ∀ b ∈ bytes, decide (b ≠ newline) = true := fun b hb =>
    decide_eq_true fun h' => h (h' ▸ hb)
  simp only [splitLine, List.span_eq_takeWhile_dropWhile, List.takeWhile_eq_self_iff.2 hall,
    List.dropWhile_eq_nil_iff.2 hall, List.isEmpty_iff, if_neg hne]

theorem splitLine_append (h : newline ∉ line) :
    splitLine (line ++ newline :: bytes) = some (dropReturn line, bytes) := by
  have hall : ∀ b ∈ line, decide (b ≠ newline) = true := fun b hb =>
    decide_eq_true fun h' => h (h' ▸ hb)
  have hspan : (line ++ newline :: bytes).span (· ≠ newline) = (line, newline :: bytes) := by
    rw [List.span_eq_takeWhile_dropWhile, List.takeWhile_append_of_pos hall,
      List.dropWhile_append_of_pos hall, List.takeWhile_cons_of_neg (by simp),
      List.dropWhile_cons_of_neg (by simp), List.append_nil]
  have hne : line ++ newline :: bytes ≠ [] := by simp
  simp only [splitLine, hspan, List.isEmpty_iff, if_neg hne]

theorem newline_not_mem_encode (h : '\n' ∉ cs) : newline ∉ Utf8.encode cs :=
  fun hb => h (Utf8.mem_of_mem_encode hb (by decide))

/-- Dropping a carriage return from a line and from its bytes is the same. -/
theorem dropReturn_encode (cs : List Char) :
    dropReturn (Utf8.encode cs) = Utf8.encode (Text.dropReturn cs.reverse).reverse := by
  rcases List.eq_nil_or_concat cs with rfl | ⟨ds, c, rfl⟩
  · rfl
  rw [List.concat_eq_append, List.reverse_append, List.reverse_singleton, List.singleton_append,
    Utf8.encode_append]
  by_cases hc : c = '\r'
  · subst hc
    have hr : Utf8.encode ['\r'] = [carriageReturn] := by decide
    rw [hr, dropReturn, if_pos (by simp), List.dropLast_concat, Text.dropReturn, List.reverse_reverse]
  · have hlast : (Utf8.encode ds ++ Utf8.encode [c]).getLast? ≠ some carriageReturn := by
      intro h
      rw [List.getLast?_append_of_ne_nil _ (mt Utf8.encode_eq_nil_iff.1 (List.cons_ne_nil _ _))] at h
      have hmem := Utf8.mem_of_mem_encode (List.mem_of_getLast? h) (by decide)
      exact hc (List.mem_singleton.1 hmem).symm
    rw [dropReturn, if_neg hlast, Text.dropReturn_cons_of_ne hc, List.reverse_cons,
      List.reverse_reverse, Utf8.encode_append]

end Streams

/-! ### Agreement -/

/-- A relation between consoles that answer alike and stay related. -/
def Console.Bisimulation {κ κ' : Type} [Console κ] [Console κ'] (R : κ → κ' → Prop) : Prop :=
  ∀ r c c', R c c' →
    (Console.respond r c).1 = (Console.respond r c').1 ∧
      R (Console.respond r c).2 (Console.respond r c').2

/-- The bytes that an event is printed as on a stream. -/
def Event.bytes : Event → List UInt8
  | text s => Utf8.encode s.toList
  | number v => Utf8.encode v.toDecimal.toList ++ [Streams.newline]

namespace Streams

/-- A stream without a limit is about to read the text whose lines a script is about to read, and
has printed what the script has recorded. -/
structure Follows (s : Streams) (t : Script) : Prop where
  room_eq : s.room = none
  input_eq : ∃ cs, s.input = Utf8.encode cs ∧ t.unread = (Text.lines cs).map String.ofList
  output_eq : s.output.toList = t.events.toList.flatMap Event.bytes

variable {s : Streams} {t : Script}

theorem follows_ofBytes (cs : List Char) :
    (ofBytes (Utf8.encode cs)).Follows (.ofLines ((Text.lines cs).map String.ofList)) where
  room_eq := rfl
  input_eq := ⟨cs, rfl, rfl⟩
  output_eq := rfl

theorem readLine_of_splitLine {line : List Char} {rest : List UInt8}
    (h : splitLine s.input = some (Utf8.encode line, rest)) :
    s.readLine = (.ok (String.ofList line), { s with input := rest }) := by
  simp only [readLine, h, Utf8.decode?_encode]

/-- The next line of the stream is the next line of the script. -/
theorem Follows.readLine (h : s.Follows t) :
    t.unread = [] ∧ s.readLine = (.error .closed, s) ∨
      ∃ line lines s', t.unread = line :: lines ∧ s.readLine = (.ok line, s') ∧
        s'.Follows { t with unread := lines } := by
  obtain ⟨cs, hin, hun⟩ := h.input_eq
  by_cases hnl : '\n' ∈ cs
  · -- up to the first newline
    obtain ⟨line, rest, rfl, hline⟩ := List.eq_append_cons_of_mem hnl
    have hsplit : splitLine s.input =
        some (Utf8.encode (Text.dropReturn line.reverse).reverse, Utf8.encode rest) := by
      rw [hin, Utf8.encode_append, Utf8.encode_cons, ← dropReturn_encode]
      exact splitLine_append (newline_not_mem_encode hline)
    rw [Text.lines_append hline, List.map_cons] at hun
    exact .inr ⟨_, _, _, hun, readLine_of_splitLine hsplit, h.room_eq, ⟨rest, rfl, rfl⟩, h.output_eq⟩
  · by_cases hne : cs = []
    · -- at the end
      subst hne
      refine .inl ⟨hun, ?_⟩
      simp only [Streams.readLine, hin]
      rfl
    · -- a last line without a newline
      have hsplit : splitLine s.input = some (Utf8.encode cs, Utf8.encode []) := by
        rw [hin]
        exact splitLine_of_not_mem (newline_not_mem_encode hnl) (mt Utf8.encode_eq_nil_iff.1 hne)
      rw [Text.lines_of_not_mem hnl hne, List.map_cons] at hun
      exact .inr ⟨_, _, _, hun, readLine_of_splitLine hsplit, h.room_eq, ⟨[], rfl, rfl⟩, h.output_eq⟩

/-- Without a limit, a stream takes whatever is written. -/
theorem Follows.write (h : s.Follows t) (e : Event) :
    ∃ s', s.write e.bytes = (.ok (), s') ∧ s'.Follows (t.record e) := by
  refine ⟨{ s with output := s.output ++ e.bytes }, ?_, h.room_eq, h.input_eq, ?_⟩
  · simp only [Streams.write, h.room_eq]
  · simp [Script.record, h.output_eq]

/-- **A stream and a script of the same text answer alike.** -/
theorem bisimulation_follows : Console.Bisimulation Follows := by
  intro r s t h
  change (answer r s).1 = (Script.answer r t).1 ∧ (answer r s).2.Follows (Script.answer r t).2
  cases r with
  | readNumber | readText =>
    rcases h.readLine with ⟨hun, hread⟩ | ⟨line, lines, s', hun, hread, h'⟩
    · simp only [answer, Script.answer, hun, hread]
      exact ⟨trivial, h⟩
    · simp only [answer, Script.answer, hun, hread]
      exact ⟨trivial, h'⟩
  | writeNumber v =>
    obtain ⟨s', hw, h'⟩ := h.write (.number v)
    have hbytes : Utf8.encode (v.toDecimal.toList ++ ['\n']) = (Event.number v).bytes :=
      Utf8.encode_append _ _
    simp only [answer, Script.answer, hbytes, hw]
    exact ⟨trivial, h'⟩
  | writeText text =>
    obtain ⟨s', hw, h'⟩ := h.write (.text text)
    have hbytes : Utf8.encode text.toList = (Event.text text).bytes := rfl
    simp only [answer, Script.answer, hbytes, hw]
    exact ⟨trivial, h'⟩

end Streams

/-! ### Runs -/

namespace Machine

variable {κ κ' : Type} [Console κ] [Console κ'] {R : κ → κ' → Prop} {c : κ} {c' : κ'}
  {config : Config} {m : Machine}

/-- Consoles that answer the request of an instruction alike see it do the same. -/
theorem follow_eq_of_respond {op : Opcode} (h : R c c')
    (hask : m.objection? op = none → ∀ r effect, m.intent op = .ask r effect →
      (Console.respond r c).1 = (Console.respond r c').1 ∧
        R (Console.respond r c).2 (Console.respond r c').2) :
    (m.follow op c).1 = (m.follow op c').1 ∧ R (m.follow op c).2 (m.follow op c').2 := by
  cases ho : m.objection? op with
  | some e =>
    rw [follow_of_objection ho, follow_of_objection ho]
    exact ⟨rfl, h⟩
  | none =>
    cases hi : m.intent op with
    | commit e =>
      rw [follow_of_commit ho hi, follow_of_commit ho hi]
      exact ⟨rfl, h⟩
    | ask r effect =>
      obtain ⟨hfst, hsnd⟩ := hask ho r effect hi
      rcases hc : Console.respond r c with ⟨e | a, d⟩
      all_goals
        rw [hc] at hfst hsnd
        rcases hc' : Console.respond r c' with ⟨answer, d'⟩
        rw [hc'] at hfst hsnd
        cases hfst
      · rw [follow_of_refusal ho hi hc, follow_of_refusal ho hi hc']
        exact ⟨rfl, hsnd⟩
      · rw [follow_of_answer ho hi hc, follow_of_answer ho hi hc']
        exact ⟨rfl, hsnd⟩

/-- Consoles that answer the request of a step alike, if it makes one, see the same step. -/
theorem step_eq_of_respond (hm : m.WithinLimits) (h : R c c')
    (hask : ∀ op, m.status = .running → m.Fetches op → m.objection? op = none →
      ∀ r effect, m.intent op = .ask r effect →
        (Console.respond r c).1 = (Console.respond r c').1 ∧
          R (Console.respond r c).2 (Console.respond r c').2) :
    (m.step c).1 = (m.step c').1 ∧ R (m.step c).2 (m.step c').2 := by
  by_cases hs : m.status = .running
  swap
  · rw [step_of_stopped hs, step_of_stopped hs]
    exact ⟨rfl, h⟩
  rcases Nat.eq_or_lt_of_le hm.ip_le with heq | hlt
  · rw [step_of_runsOff hs heq, step_of_runsOff hs heq]
    exact ⟨rfl, h⟩
  cases hb : Opcode.ofByte? (m.tape.cell m.ip) with
  | none =>
    rw [step_of_unknown hs hlt hb, step_of_unknown hs hlt hb]
    exact ⟨rfl, h⟩
  | some op =>
    rw [step_of_fetches hm hs ⟨hlt, hb⟩, step_of_fetches hm hs ⟨hlt, hb⟩]
    exact follow_eq_of_respond (m := m.count) h (hask op hs ⟨hlt, hb⟩)

/-- A step does not tell consoles apart that answer alike. -/
theorem step_eq_of_bisimulation (hR : Console.Bisimulation R) (hm : m.WithinLimits) (h : R c c') :
    (m.step c).1 = (m.step c').1 ∧ R (m.step c).2 (m.step c').2 :=
  step_eq_of_respond hm h fun _ _ _ _ r _ _ => hR r c c' h

theorem stepN_eq_of_bisimulation (hR : Console.Bisimulation R) (hm : m.Conforms config) (h : R c c')
    (n : Nat) : (stepN n m c).1 = (stepN n m c').1 ∧ R (stepN n m c).2 (stepN n m c').2 := by
  induction n generalizing m c c' with
  | zero => exact ⟨rfl, h⟩
  | succ n ih =>
    obtain ⟨hfst, hsnd⟩ := step_eq_of_bisimulation hR hm.withinLimits h
    simp only [stepN]
    rw [hfst]
    exact ih (hm.step c') hsnd

/-- **A stream and a script of the same text lead to the same run.**  After any number of steps the
machine is in the same state, down to the wording of a fault, and the stream has printed the bytes
of the events that the script has recorded. -/
theorem streams_agree_with_script {image : Array UInt8} (hl : (new config).load image = .ok m)
    (text : String) (n : Nat) :
    let streams := stepN n m (Streams.ofBytes (Utf8.encode text.toList))
    let script := stepN n m (Script.ofLines ((Text.lines text.toList).map String.ofList))
    streams.1 = script.1 ∧
      streams.2.output.toList = script.2.events.toList.flatMap Event.bytes := by
  have hm : m.Conforms config := conforms_new.load hl
  obtain ⟨hfst, hsnd⟩ := stepN_eq_of_bisimulation Streams.bisimulation_follows hm
    (Streams.follows_ofBytes text.toList) n
  exact ⟨hfst, hsnd.output_eq⟩

/-- Two numbers are read and printed, the first from a line that ends with a carriage return and a
newline, the second from a last line that ends with a carriage return only. -/
theorem streams_agree_with_script_line_ends :
    ∃ m, (new { tapeCapacity := 4, maxStackDepth := 1 }).load #[0x17, 0x15, 0x17, 0x15] = .ok m ∧
      (Text.lines "-7\r\n1\r".toList).map String.ofList = ["-7", "1\r"] ∧
      (stepN 4 m (Streams.ofBytes (Utf8.encode "-7\r\n1\r".toList))).2.output.toList =
        Utf8.encode "-7\n1\n".toList := by
  have hl : (new { tapeCapacity := 4, maxStackDepth := 1 }).load #[0x17, 0x15, 0x17, 0x15] =
      .ok _ := rfl
  refine ⟨_, hl, by rfl, ?_⟩
  rw [(streams_agree_with_script hl "-7\r\n1\r" 4).2]
  rfl

end Machine

end TapeMachine
