import TapeMachine.Assembly.Source
import TapeMachine.Proofs.Images
import TapeMachine.Proofs.Listings
import TapeMachine.Proofs.Statements

/-!
# Listings are program texts

A line of a listing, without the column of its address, is a line of source that assembles to the
bytes it shows: each form of it is read as the statement it was written for
(`Listing.Shows.parse_statement`), and the statement emits its bytes at the end of what has been
assembled before.  So a whole listing assembles to the stretch of the image that it lists
(`assemble_disassemble`).
-/

namespace TapeMachine

open Assembly

/-! ### Texts of lines -/

namespace Listing

variable {l : Listing} {image : Array UInt8}

/-- A line without the column of its address and the two blanks behind it. -/
def withoutAddress (l : Listing) : String :=
  String.ofList (((l.text.toList.dropWhile (· = ' ')).dropWhile Char.isDigit).drop 2)

/-- What is left of a line without its address is its statement. -/
theorem withoutAddress_eq (l : Listing) : l.withoutAddress = l.statement := by
  have hdigit : ∀ c ∈ Nat.toDigits 10 l.address, c.isDigit = true := fun c hc =>
    Nat.isDigit_of_mem_toDigits (by decide) (by decide) hc
  have htext : l.text.toList = List.replicate (6 - (toString l.address).length) ' ' ++
      (Nat.toDigits 10 l.address ++ ' ' :: ' ' :: l.statement.toList) := by
    have hnumber : (toString l.address).toList = Nat.toDigits 10 l.address := Nat.toList_repr
    have hgap : "  ".toList = [' ', ' '] := by decide
    simp only [text, Text.padLeft, String.toList_append, String.toList_ofList, hnumber, hgap,
      List.append_assoc, List.cons_append, List.nil_append]
  have hblanks : l.text.toList.dropWhile (· = ' ') =
      Nat.toDigits 10 l.address ++ ' ' :: ' ' :: l.statement.toList := by
    have hne : Nat.toDigits 10 l.address ≠ [] := Nat.toDigits_ne_nil
    obtain ⟨c, cs, hcs⟩ := List.exists_cons_of_ne_nil hne
    -- the blanks in front end where the number starts
    have hc : c ≠ ' ' := by
      rintro rfl
      have hblank := hdigit ' ' (by rw [hcs]; exact List.mem_cons_self)
      revert hblank
      decide
    rw [htext, List.dropWhile_append_of_pos (by simp), hcs, List.cons_append,
      List.dropWhile_cons_of_neg (by simpa using hc)]
  rw [withoutAddress, hblanks, List.dropWhile_append_of_pos hdigit,
    List.dropWhile_cons_of_neg (by decide)]
  exact String.ofList_toList

/-- The statement that a line shows. -/
def toStatement (l : Listing) : Statement :=
  match l.opcode, l.operand with
  | some op, some v => .immediate op (.value v)
  | some op, none => .plain op
  | none, _ => .bytes [l.byte]

theorem labels_toStatement (l : Listing) : l.toStatement.labels = [] := by
  obtain ⟨address, byte, opcode, operand⟩ := l
  cases opcode with
  | none => rfl
  | some op => cases operand <;> rfl

/-- The text of a statement is a name and an operand, and it is read as that statement. -/
theorem Shows.exists_spell (h : l.Shows image) :
    ∃ name operand, IsWord name ∧ (∀ c ∈ operand, isPlain c = true) ∧
      l.statement.toList = spell name operand ∧
      parseStatement (spell name operand) = .ok l.toStatement := by
  obtain ⟨address, byte, opcode, operand⟩ := l
  cases opcode with
  | none =>
    refine ⟨['.', 'b', 'y', 't', 'e'], hexadecimal byte, isWord_byte,
      fun c => plain_of_mem_hexadecimal, ?_, parseStatement_byte byte⟩
    have hname : ".byte 0x".toList = ['.', 'b', 'y', 't', 'e', ' ', '0', 'x'] := by decide
    change (".byte 0x" ++ Text.hexByte byte).toList = _
    rw [String.toList_append, hname]
    rfl
  | some op =>
    have himm := h.isSome_operand op rfl
    obtain ⟨hword, -, -⟩ := isWord_mnemonic op
    cases operand with
    | none => exact ⟨op.mnemonic.toList, [], hword, by simp, rfl, parseStatement_mnemonic himm.symm⟩
    | some v =>
      refine ⟨op.mnemonic.toList, (toString v.toInt).toList, hword, fun c => plain_of_mem_toString,
        ?_, parseStatement_immediate himm.symm v⟩
      change (op.mnemonic ++ " " ++ toString v.toInt).toList = _
      rw [String.toList_append, String.toList_append, spell_of_ne_nil _ (toList_toString_ne_nil _),
        List.append_assoc]
      rfl

/-- The text of a statement is a line. -/
theorem Shows.isLine (h : l.Shows image) :
    Text.IsLine l.statement.toList ∧ l.statement.toList ≠ [] := by
  obtain ⟨name, operand, hname, hoperand, hspell, -⟩ := h.exists_spell
  rw [hspell]
  exact ⟨isLine_spell hname hoperand, spell_ne_nil hname operand⟩

/-- A statement is read back from its text. -/
theorem Shows.parse_statement (h : l.Shows image) :
    Line.parse l.statement.toList = ⟨[], .ok (some l.toStatement)⟩ := by
  obtain ⟨name, operand, hname, hoperand, hspell, hparse⟩ := h.exists_spell
  rw [hspell, Line.parse_spell hname hoperand, hparse]
  rfl

end Listing

/-! ### Assembling without labels -/

namespace Assembly

variable {b : Builder} {d : Draft} {data : List UInt8} {l : Listing} {image : Array UInt8}

/-- A builder holds nothing but bytes, and its cursor stands behind them. -/
structure Builder.Settled (b : Builder) (data : List UInt8) : Prop where
  atEnd : b.AtEnd
  image_eq : b.image.toList = data
  references_eq : b.references = #[]
  duplicates_eq : b.duplicates = #[]

theorem Builder.Settled.bytes (h : b.Settled data) (more : List UInt8) :
    (b.bytes more).Settled (data ++ more) where
  atEnd := h.atEnd.bytes more
  image_eq := by rw [h.atEnd.image_bytes, h.image_eq]
  references_eq := by rw [references_bytes, h.references_eq]
  duplicates_eq := by rw [duplicates_bytes, h.duplicates_eq]

theorem Builder.Settled.finish (h : b.Settled data) : b.finish = .ok data.toArray := by
  rw [Builder.finish, h.duplicates_eq, h.references_eq, ← h.image_eq]
  rfl

/-- A statement of a listing emits the bytes that the line shows. -/
theorem Builder.Settled.emit (h : b.Settled data) (l : Listing) :
    (l.toStatement.emit b).Settled (data ++ l.bytes) := by
  obtain ⟨address, byte, opcode, operand⟩ := l
  cases opcode with
  | none => exact h.bytes [byte]
  | some op =>
    cases operand with
    | none => exact h.bytes [op.byte]
    | some v =>
      have := (h.bytes [op.byte]).bytes v.encode
      rwa [List.append_assoc] at this

/-- A draft that uses no label holds nothing but bytes. -/
structure Draft.Settled (d : Draft) (data : List UInt8) : Prop where
  builder : d.builder.Settled data
  uses_eq : d.uses = #[]

/-- One line of a listing. -/
theorem Draft.Settled.line (h : d.Settled data) (n : Nat) (hl : l.Shows image) :
    ∃ d', d.line n (Line.parse l.statement.toList) = .ok d' ∧ d'.Settled (data ++ l.bytes) := by
  rw [hl.parse_statement]
  refine ⟨_, rfl, h.builder.emit l, ?_⟩
  simp [h.uses_eq, l.labels_toStatement]

/-- The lines of a listing, one after the other. -/
theorem Draft.Settled.lines {ls : List Listing} (h : d.Settled data) (n : Nat)
    (hls : ∀ l ∈ ls, l.Shows image) :
    ∃ d', d.lines n (ls.map (·.statement.toList)) = .ok d' ∧
      d'.Settled (data ++ ls.flatMap Listing.bytes) := by
  induction ls generalizing d data n with
  | nil => exact ⟨d, rfl, by rwa [List.flatMap_nil, List.append_nil]⟩
  | cons l ls ih =>
    obtain ⟨d₁, hline, h₁⟩ := h.line n (hls l List.mem_cons_self)
    obtain ⟨d₂, hlines, h₂⟩ := ih h₁ (n + 1) fun l hl => hls l (List.mem_cons_of_mem _ hl)
    refine ⟨d₂, ?_, ?_⟩
    · rw [List.map_cons, Draft.lines, hline]
      exact hlines
    · rwa [List.flatMap_cons, ← List.append_assoc]

theorem Draft.Settled.finish (h : d.Settled data) : d.finish = .ok data.toArray := by
  have hundefined : d.undefined? = none := by
    rw [Draft.undefined?, h.uses_eq]
    rfl
  rw [Draft.finish, hundefined]
  exact h.builder.finish

/-- The statements of a listing assemble to the bytes that its lines show. -/
theorem assembleLines_statements {ls : List Listing} (hls : ∀ l ∈ ls, l.Shows image) :
    assembleLines (ls.map (·.statement.toList)) = .ok (ls.flatMap Listing.bytes).toArray := by
  have hempty : Draft.Settled {} [] := ⟨⟨rfl, rfl, rfl, rfl⟩, rfl⟩
  obtain ⟨d, hlines, hd⟩ := hempty.lines 1 hls
  rw [assembleLines, hlines]
  exact hd.finish

end Assembly

/-- The lines of a listing without their addresses are the lines of the text they make up, with a
newline between them or behind each. -/
theorem lines_withoutAddress {image : Array UInt8} {ls : List Listing}
    (hls : ∀ l ∈ ls, l.Shows image) :
    Text.lines ("\n".intercalate (ls.map Listing.withoutAddress)).toList =
        ls.map (·.statement.toList) ∧
      Text.lines (String.join (ls.map fun l => l.withoutAddress ++ "\n")).toList =
        ls.map (·.statement.toList) := by
  have hline : ∀ line ∈ ls.map (·.statement.toList), Text.IsLine line ∧ line ≠ [] := by
    intro line hmem
    obtain ⟨l, hl, rfl⟩ := List.mem_map.1 hmem
    exact (hls l hl).isLine
  have hnewline : "\n".toList = ['\n'] := by decide
  constructor
  · have htext : ("\n".intercalate (ls.map Listing.withoutAddress)).toList =
        ['\n'].intercalate (ls.map (·.statement.toList)) := by
      simp only [String.toList_intercalate, hnewline, List.map_map, Function.comp_def,
        Listing.withoutAddress_eq]
    rw [htext, Text.lines_intercalate (fun line hmem => (hline line hmem).1)
      fun line hmem => (hline line hmem).2]
  · have htext : (String.join (ls.map fun l => l.withoutAddress ++ "\n")).toList =
        (ls.map (·.statement.toList)).flatMap (· ++ ['\n']) := by
      simp only [String.toList_join, List.flatMap_map, String.toList_append, hnewline,
        Listing.withoutAddress_eq]
    rw [htext, Text.lines_flatMap fun line hmem => (hline line hmem).1]

/-- **A listing assembles to what it lists.**  The lines of a listing without their addresses, with
a newline between them or behind each, are a program text.  It assembles to the bytes of the image
from the start of the listing on, as many as the lines show. -/
theorem assemble_disassemble (image : Array UInt8) (start stop : Nat) :
    let lines := disassemble image start stop
    let total := totalSize lines
    let listed := image.extract start (start + total)
    listed.size = total ∧
      assemble ("\n".intercalate (lines.map Listing.withoutAddress)) = .ok listed ∧
      assemble (String.join (lines.map fun l => l.withoutAddress ++ "\n")) = .ok listed := by
  intro lines total listed
  have hstop : min stop image.size ≤ image.size := Nat.min_le_right _ _
  have hshows : ∀ l ∈ lines, l.Shows image := fun l hl => shows_of_mem_listFrom hstop hl
  have hlisted : (lines.flatMap Listing.bytes).toArray = listed := by
    rw [← Array.toList_inj, Array.toList_extract, List.extract_eq_take_drop,
      Nat.add_sub_cancel_left]
    exact flatMap_bytes_listFrom hstop start
  have hassemble := assembleLines_statements hshows
  rw [hlisted] at hassemble
  obtain ⟨hbetween, hbehind⟩ := lines_withoutAddress hshows
  refine ⟨?_, ?_, ?_⟩
  · rw [← hlisted, List.size_toArray, length_flatMap_bytes_of_shows hshows]
  · rw [assemble, hbetween, hassemble]
  · rw [assemble, hbehind, hassemble]

/-- An instruction and a jump whose immediate is cut off, which ends the listing as a plain byte. -/
example :
    let lines := disassemble #[0x01, 0xfb, 0xff, 0xff, 0xff, 0x10, 0x07] 0 7
    lines.map Listing.withoutAddress = ["PUSH -5", ".byte 0x10"] ∧ totalSize lines = 6 ∧
      assemble "PUSH -5\n.byte 0x10\n" = .ok #[0x01, 0xfb, 0xff, 0xff, 0xff, 0x10] := by
  decide +kernel

end TapeMachine
