import TapeMachine.Proofs.Consoles
import TapeMachine.Proofs.Numbers

/-!
# Lines that are written and read back

A console over byte streams writes a number on a line of its own, and a text is on a line of its own
when a newline is written behind it.  What has been written in this way can be read back by another
console.  Writers and readers have nothing in common but the bytes between them.

* `Console.Exchanges` is a conversation with a console: requests, each with the answer to it;
* `LineItem` is what can be put on a line, with the exchange that writes it and the one that reads
  it;
* `Text.IsInteger` says which texts are numbers for a console, without the reader.

Every list of items is read back as it was written, and then there is nothing more to read
(`Streams.written_items_read_back`).
-/

namespace TapeMachine

/-! ### Numbers on a line -/

namespace Text

variable {cs : List Char} {n : Nat} {v : Int}

/-- The text `cs` is a decimal number of the value `v`: one or more digits, with or without one sign
in front. -/
inductive IsInteger : List Char → Int → Prop
  | unsigned {cs : List Char} {n : Nat} (h : IsNumeral 10 cs n) : IsInteger cs n
  | positive {cs : List Char} {n : Nat} (h : IsNumeral 10 cs n) : IsInteger ('+' :: cs) n
  | negative {cs : List Char} {n : Nat} (h : IsNumeral 10 cs n) : IsInteger ('-' :: cs) (-n)

theorem readInt_eq_some_iff : readInt cs = some v ↔ IsInteger cs v := by
  have hread (cs : List Char) (v : Int) :
      (readNat 10 cs >>= fun n => pure (n : Int)) = some v ↔
        ∃ n : Nat, IsNumeral 10 cs n ∧ (n : Int) = v := by
    simp [Option.bind_eq_some_iff, readNat_eq_some_iff]
  constructor
  · intro h
    unfold readInt at h
    split at h
    all_goals
      obtain ⟨k, hk, rfl⟩ := Option.map_eq_some_iff.1 h
      obtain ⟨n, hn, rfl⟩ := (hread _ _).1 hk
    · exact .negative hn
    · exact .positive hn
    · exact .unsigned hn
  · intro h
    cases h with
    | negative h => exact Option.map_eq_some_iff.2 ⟨_, (hread _ _).2 ⟨_, h, rfl⟩, rfl⟩
    | positive h => exact Option.map_eq_some_iff.2 ⟨_, (hread _ _).2 ⟨_, h, rfl⟩, rfl⟩
    | unsigned h =>
      -- a numeral does not start with a sign
      unfold readInt
      split
      · exact absurd rfl (h.not_sign (by decide) List.mem_cons_self).2
      · exact absurd rfl (h.not_sign (by decide) List.mem_cons_self).1
      · exact Option.map_eq_some_iff.2 ⟨_, (hread _ _).2 ⟨_, h, rfl⟩, rfl⟩

/-- The decimal form of an integer is a number. -/
theorem isInteger_toString (v : Int) : IsInteger (toString v).toList v := by
  have hdigits : IsNumeral 10 (Nat.toDigits 10 v.natAbs) v.natAbs :=
    (readNat_eq_some_iff (by decide)).1 (readNat_toDigits (by decide) (by decide) _)
  rw [toList_toString]
  by_cases hneg : v < 0
  · have hnumber := IsInteger.negative hdigits
    rw [show -(v.natAbs : Int) = v by omega] at hnumber
    rw [if_pos hneg]
    exact hnumber
  · have hnumber := IsInteger.unsigned hdigits
    rw [show (v.natAbs : Int) = v by omega] at hnumber
    rw [if_neg hneg]
    exact hnumber

end Text

/-- A line is a number exactly if it is one without the white space around it, and a word. -/
theorem parseNumber_eq_ok_iff {line : String} {w : Word} :
    parseNumber line = .ok w ↔
      ∃ v, Text.IsInteger (Text.trim line.toList) v ∧ -2147483648 ≤ v ∧ v ≤ 2147483647 ∧
        w.toInt = v := by
  simp only [← Text.readInt_eq_some_iff]
  unfold parseNumber
  cases hread : Text.readInt (Text.trim line.toList) with
  | none => simp
  | some v =>
    by_cases hrange : -2147483648 ≤ v ∧ v ≤ 2147483647
    · have hword : (Int32.ofInt v).toInt = v := Int32.toInt_ofInt_of_le hrange.1 (by omega)
      simp only [if_pos hrange]
      constructor
      · intro h
        cases h
        exact ⟨v, rfl, hrange.1, hrange.2, hword⟩
      · rintro ⟨v', hv', -, -, hw⟩
        cases hv'
        rw [Int32.toInt_inj.1 (hword.trans hw.symm)]
    · simp only [if_neg hrange]
      refine iff_of_false (fun h => by cases h) ?_
      rintro ⟨v', hv', hlow, hhigh, -⟩
      cases hv'
      exact hrange ⟨hlow, hhigh⟩

/-- A word is read back from its decimal form. -/
theorem parseNumber_toDecimal (v : Word) : parseNumber v.toDecimal = .ok v := by
  have hlow := v.le_toInt
  have hhigh := v.toInt_lt
  refine parseNumber_eq_ok_iff.2 ⟨v.toInt, ?_, by omega, by omega, rfl⟩
  rw [Word.toDecimal, Assembly.trim_of_plain fun c => Assembly.plain_of_mem_toString]
  exact Text.isInteger_toString v.toInt

/-! ### Exchanges -/

/-- A request and an answer to it. -/
structure Exchange where
  request : Request
  answer : request.Answer

/-- The console `c` answers the requests of `xs` in order, each as it stands there, and is then
`c'`. -/
inductive Console.Exchanges {κ : Type} [Console κ] : κ → List Exchange → κ → Prop
  | nil (c : κ) : Exchanges c [] c
  | cons {c c' c'' : κ} {x : Exchange} {xs : List Exchange}
      (h : Console.respond x.request c = (.ok x.answer, c')) (hxs : Exchanges c' xs c'') :
      Exchanges c (x :: xs) c''

/-- What can be put on a line of its own. -/
inductive LineItem
  | number (v : Word)
  | text (s : String)
  deriving DecidableEq, Repr

namespace LineItem

/-- The exchange that writes an item.  A number brings its newline along. -/
def writing : LineItem → Exchange
  | number v => ⟨.writeNumber v, ()⟩
  | text s => ⟨.writeText (s ++ "\n"), ()⟩

/-- The exchange that reads an item. -/
def reading : LineItem → Exchange
  | number v => ⟨.readNumber, v⟩
  | text s => ⟨.readText, s⟩

/-- The line of an item, without its end. -/
def line : LineItem → List Char
  | number v => v.toDecimal.toList
  | text s => s.toList

/-- The bytes of an item on a stream. -/
def bytes (i : LineItem) : List UInt8 := Utf8.encode i.line ++ [Streams.newline]

end LineItem

namespace Streams

variable {s s' w w' r : Streams} {i : LineItem} {items : List LineItem} {rest data : List UInt8}

/-! ### Writing -/

theorem write_of_room_eq_none (h : s.room = none) (data : List UInt8) :
    s.write data = (.ok (), { s with output := s.output ++ data }) := by
  simp only [write, h]

/-- A write that does not fail puts all of its bytes behind the output. -/
theorem toList_output_of_write (h : s.write data = (.ok (), s')) :
    s'.output.toList = s.output.toList ++ data := by
  unfold write at h
  split at h
  · cases h
    simp
  · split at h
    · rename_i hle
      cases h
      simp [List.take_of_length_le hle]
    · cases h

theorem respond_writing (i : LineItem) (s : Streams) :
    (Console.respond i.writing.request s = (.ok i.writing.answer, s')) ↔
      s.write i.bytes = (.ok (), s') := by
  have hnewline : Utf8.encode ['\n'] = [newline] := by decide
  cases i with
  | number v =>
    have hbytes : (LineItem.number v).bytes = Utf8.encode (v.toDecimal.toList ++ ['\n']) := by
      rw [Utf8.encode_append, hnewline, LineItem.bytes, LineItem.line]
    rw [hbytes]
    exact Iff.rfl
  | text t =>
    have hbytes : (LineItem.text t).bytes = Utf8.encode (t ++ "\n").toList := by
      rw [String.toList_append, Utf8.encode_append, LineItem.bytes, LineItem.line, ← hnewline]
      rfl
    rw [hbytes]
    exact Iff.rfl

/-- A stream without a limit takes all items. -/
theorem exists_exchanges_writing (h : w.room = none) (items : List LineItem) :
    ∃ w', Console.Exchanges w (items.map LineItem.writing) w' := by
  induction items generalizing w with
  | nil => exact ⟨w, .nil w⟩
  | cons i items ih =>
    obtain ⟨w', hw'⟩ := ih (w := { w with output := w.output ++ i.bytes }) h
    exact ⟨w', .cons ((respond_writing i w).2 (write_of_room_eq_none h _)) hw'⟩

/-- What has been written is the bytes of the items. -/
theorem toList_output_of_exchanges
    (h : Console.Exchanges w (items.map LineItem.writing) w') :
    w'.output.toList = w.output.toList ++ items.flatMap LineItem.bytes := by
  induction items generalizing w with
  | nil =>
    cases h
    simp
  | cons i items ih =>
    cases h with
    | cons hi hrest =>
      rw [ih hrest, toList_output_of_write ((respond_writing i w).1 hi), List.flatMap_cons,
        List.append_assoc]

/-! ### Reading -/

theorem readLine_of_isLine {line : List Char} (hline : Text.IsLine line)
    (h : s.input = Utf8.encode line ++ newline :: rest) :
    s.readLine = (.ok (String.ofList line), { s with input := rest }) := by
  refine readLine_of_splitLine ?_
  rw [h, splitLine_append (newline_not_mem_encode hline.newline_not_mem), dropReturn_encode,
    Text.dropReturn_reverse hline.getLast?_ne, List.reverse_reverse]

theorem readLine_of_input_eq_nil (h : s.input = []) : s.readLine = (.error .closed, s) := by
  simp only [readLine, h]
  rfl

/-- The decimal form of a word is a line. -/
theorem isLine_toDecimal (v : Word) : Text.IsLine v.toDecimal.toList where
  newline_not_mem h := by cases Assembly.plain_of_mem_toString h
  getLast?_ne h := by cases Assembly.plain_of_mem_toString (List.mem_of_getLast? h)

/-- The next item is read, and what stands behind it stays. -/
theorem respond_reading (hi : Text.IsLine i.line) (h : s.input = i.bytes ++ rest) :
    Console.respond i.reading.request s = (.ok i.reading.answer, { s with input := rest }) := by
  rw [LineItem.bytes, List.append_assoc, List.singleton_append] at h
  have hread := readLine_of_isLine hi h
  cases i with
  | number v =>
    rw [LineItem.line, String.ofList_toList] at hread
    change answer .readNumber s = (.ok v, { s with input := rest })
    simp only [answer, hread, parseNumber_toDecimal]
  | text t =>
    rw [LineItem.line, String.ofList_toList] at hread
    exact hread

/-- Items are read one after the other. -/
theorem exchanges_reading (hitems : ∀ i ∈ items, Text.IsLine i.line)
    (h : r.input = items.flatMap LineItem.bytes) :
    Console.Exchanges r (items.map LineItem.reading) { r with input := [] } := by
  induction items generalizing r with
  | nil =>
    rw [List.flatMap_nil] at h
    rw [← h]
    exact .nil r
  | cons i items ih =>
    rw [List.flatMap_cons] at h
    obtain ⟨hi, hrest⟩ := List.forall_mem_cons.1 hitems
    exact .cons (respond_reading hi h) (ih hrest rfl)

/-- **What is written line by line is read back.**  Let the items be numbers, and texts without a
newline and without a carriage return at the end, and let them be written on one console, the texts
with a newline behind.  If there is no limit to its output, then no write fails.  If no write fails,
another console that is given the bytes that were written reads the same items in the same order,
and from then on its input is closed.

A line is read as a number exactly if it is a sign or none and then digits, without the white space
around, and the number is one that a word can be, which is then the answer. -/
theorem written_items_read_back (items : List LineItem)
    (hitems : ∀ s, LineItem.text s ∈ items → Text.IsLine s.toList) (w : Streams) :
    (w.room = none → ∃ w', Console.Exchanges w (items.map LineItem.writing) w') ∧
    (∀ w', Console.Exchanges w (items.map LineItem.writing) w' →
      ∃ data, w'.output.toList = w.output.toList ++ data ∧
        ∀ r : Streams, r.input = data →
          ∃ r', Console.Exchanges r (items.map LineItem.reading) r' ∧
            Console.respond .readNumber r' = (.error .closed, r') ∧
            Console.respond .readText r' = (.error .closed, r')) ∧
    ∀ line v, parseNumber line = .ok v ↔
      ∃ k, Text.IsInteger (Text.trim line.toList) k ∧ -2147483648 ≤ k ∧ k ≤ 2147483647 ∧
        v.toInt = k := by
  have hlines : ∀ i ∈ items, Text.IsLine i.line := by
    intro i hi
    cases i with
    | number v => exact isLine_toDecimal v
    | text s => exact hitems s hi
  refine ⟨fun h => exists_exchanges_writing h items, fun w' hw' => ?_,
    fun line v => parseNumber_eq_ok_iff⟩
  refine ⟨_, toList_output_of_exchanges hw', fun r hr => ⟨_, exchanges_reading hlines hr, ?_⟩⟩
  have hclosed := readLine_of_input_eq_nil (s := { r with input := [] }) rfl
  refine ⟨?_, hclosed⟩
  change answer .readNumber _ = _
  simp only [answer, hclosed]

/-- The least word, an empty text, a text that looks like a number and one with a return in it. -/
def sampleItems : List LineItem :=
  [.number (-2147483648), .text "", .text " +7", .text "\rü", .number 7]

/-- The sample is read back, and a line with a sign, zeros and other white space is a number. -/
theorem written_items_read_back_sample :
    (∀ s, LineItem.text s ∈ sampleItems → Text.IsLine s.toList) ∧
      (∃ w', Console.Exchanges (ofBytes []) (sampleItems.map LineItem.writing) w' ∧
        ∃ r', Console.Exchanges (ofBytes w'.output.toList) (sampleItems.map LineItem.reading) r' ∧
          Console.respond .readNumber r' = (.error .closed, r') ∧
          Console.respond .readText r' = (.error .closed, r')) ∧
      parseNumber "\t+0012\u00a0" = .ok 12 := by
  have hitems : ∀ s, LineItem.text s ∈ sampleItems → Text.IsLine s.toList := by
    intro s hs
    have hcases : s = "" ∨ s = " +7" ∨ s = "\rü" := by simpa [sampleItems] using hs
    rcases hcases with rfl | rfl | rfl
    all_goals exact ⟨by decide +kernel, by decide +kernel⟩
  obtain ⟨hwrite, hread, hparse⟩ := written_items_read_back sampleItems hitems (ofBytes [])
  obtain ⟨w', hw'⟩ := hwrite rfl
  obtain ⟨data, hdata, hback⟩ := hread w' hw'
  refine ⟨hitems, ⟨w', hw', hback _ hdata⟩, (hparse _ _).2 ⟨12, ?_, by decide, by decide, by decide⟩⟩
  exact Text.readInt_eq_some_iff.1 (by decide +kernel)

end Streams

end TapeMachine
