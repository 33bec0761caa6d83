import Mathlib.Data.List.Basic
import Mathlib.Data.List.TakeWhile
import TapeMachine.Assembly.Line
import TapeMachine.Proofs.Lines
import TapeMachine.Proofs.Numerals

/-!
# Lines made of plain words

A word of characters without a meaning of their own (`Assembly.IsWord`) passes through the reading
of a line untouched: no comment starts in it, it holds no label, and nothing is trimmed off it.  So
a line that is spelled as a name and an operand is read as that name with that operand
(`Assembly.Line.parse_spell`).
-/

namespace TapeMachine

namespace Text

variable {cs : List Char}

theorem trimStart_of_head? (h : ∀ c ∈ cs.head?, isBlank c = false) : trimStart cs = cs := by
  cases cs with
  | nil => rfl
  | cons c cs =>
    rw [trimStart, List.dropWhile_cons_of_neg]
    rw [h c rfl]
    decide

/-- A text with something visible at both ends keeps all of it. -/
theorem trim_of_ends (hfirst : ∀ c ∈ cs.head?, isBlank c = false)
    (hlast : ∀ c ∈ cs.getLast?, isBlank c = false) : trim cs = cs := by
  have hend : trimStart cs.reverse = cs.reverse := by
    refine trimStart_of_head? fun c hc => hlast c ?_
    rwa [List.head?_reverse] at hc
  rw [trim, trimStart_of_head? hfirst, trimEnd, ← trimStart, hend, List.reverse_reverse]

end Text

namespace Assembly

variable {cs name operand : List Char} {c : Char}

/-- The characters that quote or separate something. -/
def reserved : List Char := ['\x22', '\x27', ';', ':', ',']

/-- Whether a character has no meaning of its own: it is no white space, and it quotes or separates
nothing. -/
def isPlain (c : Char) : Bool := !Text.isBlank c && !reserved.contains c

/-- One or more plain characters. -/
structure IsWord (w : List Char) : Prop where
  ne_nil : w ≠ []
  plain : ∀ c ∈ w, isPlain c = true

theorem isBlank_of_isPlain (h : isPlain c = true) : Text.isBlank c = false := by
  simp only [isPlain, Bool.and_eq_true, Bool.not_eq_true'] at h
  exact h.1

theorem trim_of_plain (h : ∀ c ∈ cs, isPlain c = true) : Text.trim cs = cs :=
  Text.trim_of_ends (fun c hc => isBlank_of_isPlain (h c (List.mem_of_mem_head? hc)))
    fun c hc => isBlank_of_isPlain (h c (List.mem_of_getLast? hc))

theorem IsWord.visible {w : List Char} (h : IsWord w) : ∀ c ∈ w, (!Text.isBlank c) = true := by
  intro c hc
  rw [isBlank_of_isPlain (h.plain c hc), Bool.not_false]

/-! ### Comments and labels -/

theorem stripComment_of_plain (h : ∀ c ∈ cs, isPlain c = true ∨ c = ' ') :
    stripComment cs = cs := by
  unfold stripComment
  induction cs with
  | nil => rfl
  | cons c cs ih =>
    have hc := h c List.mem_cons_self
    have hsemicolon : c ≠ ';' := by
      rintro rfl
      revert hc
      decide
    have hquote : ¬ (c = '\x22' ∨ c = '\x27') := by
      rintro (rfl | rfl) <;> revert hc <;> decide
    have hnext : Scan.outside.next c = .outside := if_neg hquote
    rw [dropComment, if_neg (fun h' => hsemicolon h'.2), hnext,
      ih fun d hd => h d (List.mem_cons_of_mem _ hd)]

theorem splitColon_of_not_mem (h : ':' ∉ cs) : splitColon cs = none := by
  induction cs with
  | nil => rfl
  | cons c cs ih =>
    have hc : c ≠ ':' := fun h' => h (h' ▸ List.mem_cons_self)
    rw [splitColon, if_neg hc, ih fun h' => h (List.mem_cons_of_mem _ h'), Option.map_none]

theorem splitLabels_of_not_mem (h : ':' ∉ cs) : splitLabels cs = ([], cs) := by
  rw [splitLabels]
  split
  · rfl
  · rename_i hsome
    cases (splitColon_of_not_mem h).symm.trans hsome

/-! ### A name and its operand -/

/-- A name and its operand, if there is one, with a blank between them. -/
def spell (name : List Char) : List Char → List Char
  | [] => name
  | operand => name ++ ' ' :: operand

theorem spell_of_ne_nil (name : List Char) (h : operand ≠ []) :
    spell name operand = name ++ ' ' :: operand := by
  cases operand with
  | nil => exact absurd rfl h
  | cons d ds => rfl

theorem plain_of_mem_spell (hname : IsWord name) (hoperand : ∀ c ∈ operand, isPlain c = true)
    (hc : c ∈ spell name operand) : isPlain c = true ∨ c = ' ' := by
  cases operand with
  | nil => exact .inl (hname.plain c hc)
  | cons d ds =>
    rcases List.mem_append.1 hc with hc | hc
    · exact .inl (hname.plain c hc)
    · rcases List.mem_cons.1 hc with rfl | hc
      · exact .inr rfl
      · exact .inl (hoperand c hc)

theorem head?_spell (hname : IsWord name) (hc : c ∈ (spell name operand).head?) :
    isPlain c = true := by
  obtain ⟨d, ds, rfl⟩ := List.exists_cons_of_ne_nil hname.ne_nil
  have hhead : (spell (d :: ds) operand).head? = some d := by cases operand <;> rfl
  cases hhead.symm.trans hc
  exact hname.plain c List.mem_cons_self

theorem getLast?_spell (hname : IsWord name) (hoperand : ∀ c ∈ operand, isPlain c = true)
    (hc : c ∈ (spell name operand).getLast?) : isPlain c = true := by
  cases operand with
  | nil => exact hname.plain c (List.mem_of_getLast? hc)
  | cons d ds =>
    have hspell : spell name (d :: ds) = name ++ [' '] ++ d :: ds := by
      rw [List.append_assoc]
      rfl
    rw [hspell, List.getLast?_append_of_ne_nil _ (List.cons_ne_nil d ds)] at hc
    exact hoperand c (List.mem_of_getLast? hc)

theorem isLine_spell (hname : IsWord name) (hoperand : ∀ c ∈ operand, isPlain c = true) :
    Text.IsLine (spell name operand) where
  newline_not_mem h := by
    have hc := plain_of_mem_spell hname hoperand h
    revert hc
    decide
  getLast?_ne h := by
    have hc := getLast?_spell hname hoperand h
    revert hc
    decide

theorem spell_ne_nil (hname : IsWord name) (operand : List Char) : spell name operand ≠ [] := by
  obtain ⟨d, ds, rfl⟩ := List.exists_cons_of_ne_nil hname.ne_nil
  cases operand <;> exact List.cons_ne_nil _ _

theorem takeWhile_spell (hname : IsWord name) (operand : List Char) :
    (spell name operand).takeWhile (!Text.isBlank ·) = name := by
  have hvisible := hname.visible
  cases operand with
  | nil => exact List.takeWhile_eq_self_iff.2 hvisible
  | cons d ds =>
    change (name ++ ' ' :: d :: ds).takeWhile _ = name
    rw [List.takeWhile_append_of_pos hvisible, List.takeWhile_cons_of_neg (by decide),
      List.append_nil]

theorem trim_dropWhile_spell (hname : IsWord name) (hoperand : ∀ c ∈ operand, isPlain c = true) :
    Text.trim ((spell name operand).dropWhile (!Text.isBlank ·)) = operand := by
  have hvisible := hname.visible
  cases operand with
  | nil =>
    rw [spell, List.dropWhile_eq_nil_iff.2 hvisible]
    rfl
  | cons d ds =>
    have hblank : Text.trim (' ' :: d :: ds) = Text.trim (d :: ds) := rfl
    change Text.trim ((name ++ ' ' :: d :: ds).dropWhile _) = d :: ds
    rw [List.dropWhile_append_of_pos hvisible, List.dropWhile_cons_of_neg (by decide), hblank]
    exact trim_of_plain hoperand

theorem parseStatement_of_instruction (hname : IsWord name) (hdot : name.head? ≠ some '.')
    (hoperand : ∀ c ∈ operand, isPlain c = true) :
    parseStatement (spell name operand) = parseInstruction name operand := by
  simp only [parseStatement, takeWhile_spell hname, trim_dropWhile_spell hname hoperand]
  split
  · exact absurd rfl hdot
  · rfl

theorem parseStatement_of_directive {directive : List Char} (hname : IsWord ('.' :: directive))
    (hoperand : ∀ c ∈ operand, isPlain c = true) :
    parseStatement (spell ('.' :: directive) operand) = parseDirective directive operand := by
  simp only [parseStatement, takeWhile_spell hname, trim_dropWhile_spell hname hoperand]

/-- A line that is spelled as a name and an operand has no labels and is read as that name with that
operand. -/
theorem Line.parse_spell (hname : IsWord name) (hoperand : ∀ c ∈ operand, isPlain c = true) :
    Line.parse (spell name operand) = ⟨[], (parseStatement (spell name operand)).map some⟩ := by
  have hplain := fun c (hc : c ∈ spell name operand) => plain_of_mem_spell hname hoperand hc
  have hcolon : ':' ∉ spell name operand := by
    intro h
    have hc := hplain ':' h
    revert hc
    decide
  have htrim : Text.trim (spell name operand) = spell name operand :=
    Text.trim_of_ends (fun c hc => isBlank_of_isPlain (head?_spell hname hc))
      fun c hc => isBlank_of_isPlain (getLast?_spell hname hoperand hc)
  simp only [Line.parse, stripComment_of_plain hplain, htrim, splitLabels_of_not_mem hcolon,
    List.isEmpty_iff, if_neg (spell_ne_nil hname operand)]

/-! ### Instructions and bytes -/

variable {op : Opcode} {n : Int}

theorem plain_of_mem_toString (hc : c ∈ (toString n).toList) : isPlain c = true := by
  have hdigit : ∀ d < 10, isPlain (Nat.digitChar d) = true := by decide
  rcases Text.eq_or_exists_digitChar_of_mem_toString hc with rfl | ⟨d, hd, rfl⟩
  · decide
  · exact hdigit d hd

theorem toList_toString_ne_nil (n : Int) : (toString n).toList ≠ [] := by
  rw [Text.toList_toString]
  exact List.append_ne_nil_of_right_ne_nil _ Nat.toDigits_ne_nil

/-- A number is not taken for a label. -/
theorem isIdentifier_toString (n : Int) : isIdentifier (toString n).toList = false := by
  have hdigit : ∀ d < 10, isIdentifierStart (Nat.digitChar d) = false := by decide
  cases hcs : (toString n).toList with
  | nil => rfl
  | cons c cs =>
    have hc : c ∈ (toString n).toList := by
      rw [hcs]
      exact List.mem_cons_self
    have hstart : isIdentifierStart c = false := by
      rcases Text.eq_or_exists_digitChar_of_mem_toString hc with rfl | ⟨d, hd, rfl⟩
      · decide
      · exact hdigit d hd
    rw [isIdentifier, hstart, Bool.false_and]

theorem parseValue_of_plain (h : ∀ c ∈ cs, isPlain c = true) : parseValue cs = parseNumeral cs := by
  rw [parseValue, trim_of_plain h]
  split
  · cases h '\x27' List.mem_cons_self
  · rfl

theorem Operand.parse_toString (v : Word) :
    Operand.parse (toString v.toInt).toList = .ok (.value v) := by
  rw [Operand.parse, isIdentifier_toString, if_neg Bool.false_ne_true,
    parseValue_of_plain fun c => plain_of_mem_toString, parseNumeral_toString]
  rfl

/-- A mnemonic is a word, no directive, and the name of its opcode. -/
theorem isWord_mnemonic (op : Opcode) :
    IsWord op.mnemonic.toList ∧ op.mnemonic.toList.head? ≠ some '.' ∧
      Opcode.ofMnemonic? op.mnemonic.toList = some op := by
  have hall : (Opcode.all.all fun op =>
      !op.mnemonic.toList.isEmpty && op.mnemonic.toList.all isPlain &&
        op.mnemonic.toList.head? != some '.' &&
        Opcode.ofMnemonic? op.mnemonic.toList == some op) = true := by decide +kernel
  have hop := List.all_eq_true.1 hall op op.mem_all
  simp only [Bool.and_eq_true, Bool.not_eq_true', List.isEmpty_eq_false_iff, List.all_eq_true,
    bne_iff_ne, beq_iff_eq] at hop
  obtain ⟨⟨⟨hne, hplain⟩, hdot⟩, hof⟩ := hop
  exact ⟨⟨hne, hplain⟩, hdot, hof⟩

theorem parseStatement_mnemonic (h : op.hasImmediate = false) :
    parseStatement (spell op.mnemonic.toList []) = .ok (.plain op) := by
  obtain ⟨hword, hdot, hof⟩ := isWord_mnemonic op
  rw [parseStatement_of_instruction hword hdot (by simp), parseInstruction, hof]
  simp [h]

theorem parseStatement_immediate (h : op.hasImmediate = true) (v : Word) :
    parseStatement (spell op.mnemonic.toList (toString v.toInt).toList) =
      .ok (.immediate op (.value v)) := by
  obtain ⟨hword, hdot, hof⟩ := isWord_mnemonic op
  have hne := toList_toString_ne_nil v.toInt
  rw [parseStatement_of_instruction hword hdot fun c => plain_of_mem_toString, parseInstruction,
    hof]
  simp only [h, if_true, List.isEmpty_iff, if_neg hne, Operand.parse_toString]
  rfl

theorem splitCommas_of_not_mem (h : ',' ∉ cs) : splitCommas cs = [cs] := by
  induction cs with
  | nil => rfl
  | cons c cs ih =>
    have hc : c ≠ ',' := fun h' => h (h' ▸ List.mem_cons_self)
    rw [splitCommas, if_neg hc, ih fun h' => h (List.mem_cons_of_mem _ h')]

/-- A byte as it is written behind `.byte`. -/
def hexadecimal (b : UInt8) : List Char := '0' :: 'x' :: (Text.hexByte b).toList

theorem plain_of_mem_hexadecimal {b : UInt8} (hc : c ∈ hexadecimal b) : isPlain c = true := by
  have hdigit : ∀ d < 16, isPlain (Nat.digitChar d) = true := by decide
  have hb := b.toNat_lt
  simp only [hexadecimal, Text.hexByte, String.toList_ofList, List.mem_cons, List.not_mem_nil,
    or_false] at hc
  rcases hc with rfl | rfl | rfl | rfl
  · decide
  · decide
  · exact hdigit _ (by omega)
  · exact hdigit _ (by omega)

theorem parseByte_hexadecimal (b : UInt8) : parseByte (hexadecimal b) = .ok b := by
  have hb := b.toNat_lt
  have hint : (Int32.ofInt b.toNat).toInt = b.toNat := by
    exact Int32.toInt_ofNat_of_lt (by omega)
  have hbyte : UInt8.ofInt b.toNat = b := by
    have hmod : ((b.toNat : Int) % 2 ^ 8).toNat = b.toNat := by omega
    rw [UInt8.ofInt, hmod, UInt8.ofNat_toNat]
  rw [parseByte, parseValue_of_plain fun c => plain_of_mem_hexadecimal, hexadecimal,
    parseNumeral_hexByte]
  change (if _ then _ else _) = _
  rw [if_pos (by rw [hint]; omega), hint, hbyte]
  rfl

theorem isWord_byte : IsWord ['.', 'b', 'y', 't', 'e'] :=
  ⟨List.cons_ne_nil _ _, List.all_eq_true.1 (by decide)⟩

theorem parseStatement_byte (b : UInt8) :
    parseStatement (spell ['.', 'b', 'y', 't', 'e'] (hexadecimal b)) = .ok (.bytes [b]) := by
  have hplain : ∀ c ∈ hexadecimal b, isPlain c = true := fun c => plain_of_mem_hexadecimal
  have hcomma : ',' ∉ hexadecimal b := fun h => by cases hplain ',' h
  have hitems : parseItems (hexadecimal b) = .ok [hexadecimal b] := by
    simp only [parseItems, splitCommas_of_not_mem hcomma, List.map_cons, List.map_nil,
      trim_of_plain hplain]
    rfl
  have hname : String.ofList (['b', 'y', 't', 'e'].map Char.toLower) = "byte" := by decide
  rw [parseStatement_of_directive isWord_byte hplain]
  simp only [parseDirective, hname, hitems, if_true]
  rw [if_neg (by decide), if_neg (by decide)]
  simp only [bind, Except.bind, pure, Except.pure, List.mapM_cons, parseByte_hexadecimal,
    List.mapM_nil]

end Assembly

end TapeMachine
