import TapeMachine.Proofs.Snippets

/-!
# Data words and immediates

`PUSH` and `.word` read operands alike, but a list of words is split at its commas first, without
regard to quotes, and the scan for comments takes a quote between two quotes for an end of the
literal.

* A value that holds a comma or a semicolon is the literal of that character
  (`Assembly.trim_of_separator`), so these two literals are all that can go wrong;
* either of them, where it is torn apart, leaves a lone quote among the items of the list
  (`Assembly.lone_quote_of_comma`, `Assembly.lone_quote_of_semicolon`), which is no operand.

So a list of words assembles exactly if no item is the literal of a comma and the line has no
comment, and then to the words that `PUSH` has as immediates
(`Assembly.data_words_match_immediates`).
-/

namespace TapeMachine

namespace Text

variable {cs : List Char} {c : Char} {base high n : Nat}

/-- Trimming leaves everything visible. -/
theorem mem_trim (hc : isBlank c = false) (h : c ∈ cs) : c ∈ trim cs := by
  obtain ⟨gap, gap', hgap, hgap', hcs⟩ := exists_gaps cs
  rw [hcs, List.mem_append, List.mem_append] at h
  rcases h with hmem | hmem | hmem
  · rw [hgap c hmem] at hc
    cases hc
  · exact hmem
  · rw [hgap' c hmem] at hc
    cases hc

theorem digitValue_of_readDigits (h : readDigits base high cs = some n) (hc : c ∈ cs) :
    (digitValue c).isSome = true := by
  induction cs generalizing high with
  | nil => cases hc
  | cons d cs ih =>
    rw [readDigits] at h
    split at h
    · rename_i k hk
      rcases List.mem_cons.1 hc with rfl | hc
      · rw [digitOf, Option.filter_eq_some_iff] at hk
        rw [hk.1, Option.isSome_some]
      · exact ih h hc
    · cases h

theorem digitValue_of_readNat (h : readNat base cs = some n) (hc : c ∈ cs) :
    (digitValue c).isSome = true := by
  unfold readNat at h
  split at h
  · cases h
  · exact digitValue_of_readDigits h hc

end Text

namespace Assembly

variable {cs ds inner x : List Char} {c d : Char} {v : Word} {k : Nat}

/-! ### Values that hold a separator -/

/-- The characters that separate items from each other and a line from its comment. -/
def IsSeparator (d : Char) : Prop := d = ',' ∨ d = ';'

theorem IsSeparator.not_isBlank (hd : IsSeparator d) : Text.isBlank d = false := by
  rcases hd with rfl | rfl <;> decide

/-- The characters of numbers. -/
def isNumeric (c : Char) : Bool := ['-', 'x', 'X'].contains c || (Text.digitValue c).isSome

theorem IsSeparator.not_isNumeric (hd : IsSeparator d) : isNumeric d = false := by
  rcases hd with rfl | rfl <;> decide

theorem isNumeric_of_parseMagnitude (h : parseMagnitude cs = some k) (hc : c ∈ cs) :
    isNumeric c = true := by
  have hdigit : (Text.digitValue c).isSome = true → isNumeric c = true := by
    intro hsome
    rw [isNumeric, hsome, Bool.or_true]
  unfold parseMagnitude at h
  split at h
  · rcases List.mem_cons.1 hc with rfl | hc
    · decide
    · rcases List.mem_cons.1 hc with rfl | hc
      · decide
      · exact hdigit (Text.digitValue_of_readNat h hc)
  · rcases List.mem_cons.1 hc with rfl | hc
    · decide
    · rcases List.mem_cons.1 hc with rfl | hc
      · decide
      · exact hdigit (Text.digitValue_of_readNat h hc)
  · exact hdigit (Text.digitValue_of_readNat h hc)

theorem isNumeric_of_parseNumeral (h : parseNumeral cs = .ok v) (hc : c ∈ cs) :
    isNumeric c = true := by
  have hmagnitude : ∀ digits, (parseMagnitude digits).filter (· < UInt64.size) ≠ none →
      c ∈ digits → isNumeric c = true := by
    intro digits hne hmem
    cases hk : parseMagnitude digits with
    | none =>
      rw [hk] at hne
      exact absurd rfl hne
    | some k => exact isNumeric_of_parseMagnitude hk hmem
  unfold parseNumeral at h
  split at h
  rename_i sign digits heq
  have hne : (parseMagnitude digits).filter (· < UInt64.size) ≠ none := by
    intro hnone
    rw [hnone] at h
    cases h
  split at heq
  · cases heq
    rcases List.mem_cons.1 hc with rfl | hc
    · decide
    · exact hmagnitude _ hne hc
  · cases heq
    exact hmagnitude _ hne hc

theorem unescape_eq_nil (h : unescape cs = .ok []) : cs = [] := by
  unfold unescape at h
  split at h
  · rfl
  · cases h
  · split at h
    · cases h
    · obtain ⟨text, -, heq⟩ := map_eq_ok_iff.1 h
      cases heq
  · obtain ⟨text, -, heq⟩ := map_eq_ok_iff.1 h
    cases heq

/-- A single character is written as itself or as an escape. -/
theorem unescape_eq_singleton (h : unescape cs = .ok [c]) :
    cs = [c] ∨ ∃ e, cs = ['\x5c', e] ∧ escapeValue e = some c := by
  unfold unescape at h
  split at h
  · cases h
  · cases h
  · rename_i e cs
    split at h
    · cases h
    · rename_i value hvalue
      obtain ⟨text, htext, heq⟩ := map_eq_ok_iff.1 h
      cases heq
      rw [unescape_eq_nil htext]
      exact .inr ⟨e, rfl, hvalue⟩
  · obtain ⟨text, htext, heq⟩ := map_eq_ok_iff.1 h
    cases heq
    rw [unescape_eq_nil htext]
    exact .inl rfl

theorem eq_concat_of_dropLast? (h : dropLast? d cs = some inner) : cs = inner ++ [d] := by
  unfold dropLast? at h
  split at h
  · rename_i hlast
    cases h
    exact (List.dropLast_append_getLast? d hlast).symm
  · cases h

/-- A value is the literal of a character or a number. -/
theorem parseValue_cases (hv : parseValue cs = .ok v) :
    (∃ inner c, Text.trim cs = '\x27' :: (inner ++ ['\x27']) ∧ unescape inner = .ok [c]) ∨
      parseNumeral (Text.trim cs) = .ok v := by
  unfold parseValue at hv
  split at hv
  · rename_i body hbody
    obtain ⟨c, hc, -⟩ := bind_eq_ok_iff.1 hv
    unfold parseCharacter at hc
    split at hc
    · cases hc
    · rename_i inner hinner
      obtain ⟨text, htext, hone⟩ := bind_eq_ok_iff.1 hc
      split at hone
      · exact .inl ⟨inner, _, by rw [hbody, eq_concat_of_dropLast? hinner], htext⟩
      · cases hone
  · exact .inr hv

/-- A value that holds a separator is its literal. -/
theorem trim_of_separator (hd : IsSeparator d) (hv : parseValue cs = .ok v) (hmem : d ∈ cs) :
    Text.trim cs = ['\x27', d, '\x27'] := by
  have htrim := Text.mem_trim hd.not_isBlank hmem
  rcases parseValue_cases hv with ⟨inner, c, hcs, hc⟩ | hnumeral
  · have hquote : d ≠ '\x27' := by
      rcases hd with rfl | rfl <;> decide
    rw [hcs] at htrim ⊢
    have hinner : d ∈ inner := by simpa [hquote] using htrim
    rcases unescape_eq_singleton hc with rfl | ⟨e, rfl, he⟩
    · rw [List.mem_singleton.1 hinner]
      rfl
    · -- no separator stands behind a backslash
      have hescape : escapeValue d = none := by
        rcases hd with rfl | rfl <;> decide
      have hbackslash : d ≠ '\x5c' := by
        rcases hd with rfl | rfl <;> decide
      have hde : d = e := by simpa [hbackslash] using hinner
      rw [← hde, hescape] at he
      cases he
  · have hnumeric := isNumeric_of_parseNumeral hnumeral htrim
    rw [hd.not_isNumeric] at hnumeric
    cases hnumeric

/-! ### Values and the scan for comments -/

/-- The literal of a quote without a backslash. -/
def quoteLiteral : List Char := ['\x27', '\x27', '\x27']

/-- The scan leaves the literal of a character at its end, unless the character is a quote. -/
theorem after_literal (h : unescape inner = .ok [c])
    (hne : '\x27' :: (inner ++ ['\x27']) ≠ quoteLiteral) :
    Scan.outside.after ('\x27' :: (inner ++ ['\x27'])) = .outside := by
  rcases unescape_eq_singleton h with rfl | ⟨e, rfl, -⟩
  · have hquote : c ≠ '\x27' := by
      rintro rfl
      exact hne rfl
    have hbackslash : c ≠ '\x5c' := by
      rintro rfl
      cases h
    have hnext : (Scan.inside '\x27').next c = .inside '\x27' := by
      rw [Scan.next, if_neg hbackslash, if_neg hquote]
    change ((Scan.inside '\x27').next c).next '\x27' = .outside
    rw [hnext]
    decide
  · rfl

/-- The scan is outside literals behind a value. -/
theorem after_value (hv : parseValue cs = .ok v) (hne : Text.trim cs ≠ quoteLiteral) :
    Scan.outside.after cs = .outside := by
  obtain ⟨gap, gap', hgap, hgap', hcs⟩ := Text.exists_gaps cs
  have hblank : ∀ {gap : List Char}, (∀ c ∈ gap, Text.isBlank c = true) →
      Scan.outside.after gap = .outside := by
    intro gap hgap
    refine Scan.after_of_quote_free fun c hc hquote => ?_
    have hc := hgap c hc
    rcases hquote with rfl | rfl <;> cases hc
  have htrim : Scan.outside.after (Text.trim cs) = .outside := by
    rcases parseValue_cases hv with ⟨inner, c, heq, hc⟩ | hnumeral
    · rw [heq] at hne ⊢
      exact after_literal hc hne
    · refine Scan.after_of_quote_free fun c hc hquote => ?_
      have hc := isNumeric_of_parseNumeral hnumeral hc
      rcases hquote with rfl | rfl <;> revert hc <;> decide
  rw [hcs, Scan.after_append, Scan.after_append, hblank hgap, htrim, hblank hgap']

/-! ### Items -/

/-- A comma separates the pieces before it from those behind it. -/
theorem splitCommas_append_comma (cs ds : List Char) :
    splitCommas (cs ++ ',' :: ds) = splitCommas cs ++ splitCommas ds := by
  induction cs with
  | nil => simp [splitCommas]
  | cons c cs ih =>
    obtain ⟨piece, pieces, hpieces⟩ :=
      List.exists_cons_of_ne_nil (pieces_splitCommas cs).ne_nil
    rw [List.cons_append, splitCommas, splitCommas, ih, hpieces]
    split <;> rfl

/-- A text without a comma goes to the first piece of the text behind it. -/
theorem splitCommas_append_left (h : ',' ∉ cs) (ds : List Char) :
    ∃ piece pieces, splitCommas ds = piece :: pieces ∧
      splitCommas (cs ++ ds) = (cs ++ piece) :: pieces := by
  obtain ⟨piece, pieces, hpieces⟩ := List.exists_cons_of_ne_nil (pieces_splitCommas ds).ne_nil
  refine ⟨piece, pieces, hpieces, ?_⟩
  induction cs with
  | nil => exact hpieces
  | cons c cs ih =>
    have hc : c ≠ ',' := fun heq => h (heq ▸ List.mem_cons_self)
    rw [List.cons_append, splitCommas, if_neg hc, ih fun hmem => h (List.mem_cons_of_mem c hmem)]
    rfl

/-- A text without a comma goes to the last piece of the text before it. -/
theorem splitCommas_append_right (cs : List Char) (h : ',' ∉ ds) :
    ∃ pieces piece, splitCommas cs = pieces ++ [piece] ∧
      splitCommas (cs ++ ds) = pieces ++ [piece ++ ds] := by
  induction cs with
  | nil => exact ⟨[], [], rfl, splitCommas_of_not_mem h⟩
  | cons c cs ih =>
    obtain ⟨pieces, piece, hcs, hds⟩ := ih
    rw [List.cons_append, splitCommas, splitCommas, hcs, hds]
    split
    · exact ⟨[] :: pieces, piece, rfl, rfl⟩
    · cases pieces with
      | nil => exact ⟨[], c :: piece, rfl, rfl⟩
      | cons first pieces => exact ⟨(c :: first) :: pieces, piece, rfl, rfl⟩

/-- The items of a list: the pieces between its commas, trimmed. -/
def items (cs : List Char) : List (List Char) := (splitCommas cs).map Text.trim

theorem comma_not_mem_of_blank (h : ∀ c ∈ cs, Text.isBlank c = true) : ',' ∉ cs := by
  intro hmem
  cases h ',' hmem

theorem items_append_left (h : ∀ c ∈ cs, Text.isBlank c = true) (ds : List Char) :
    items (cs ++ ds) = items ds := by
  obtain ⟨piece, pieces, hds, happend⟩ := splitCommas_append_left (comma_not_mem_of_blank h) ds
  have htrim : Text.trim (cs ++ piece) = Text.trim piece := by
    rw [Text.trim, Text.trimStart_append h, Text.trim]
  rw [items, items, hds, happend, List.map_cons, List.map_cons, htrim]

theorem items_cons_blank (ds : List Char) : items (' ' :: ds) = items ds := by
  have hblank : ∀ c ∈ [' '], Text.isBlank c = true := by
    intro c hc
    cases List.mem_singleton.1 hc
    decide
  exact items_append_left hblank ds

theorem items_append_right (cs : List Char) (h : ∀ c ∈ ds, Text.isBlank c = true) :
    items (cs ++ ds) = items cs := by
  obtain ⟨pieces, piece, hcs, happend⟩ := splitCommas_append_right cs (comma_not_mem_of_blank h)
  have htrim := Text.trim_append (List.forall_mem_nil _) h piece
  rw [List.nil_append] at htrim
  rw [items, items, hcs, happend, List.map_append, List.map_append, List.map_singleton,
    List.map_singleton, htrim]

/-- White space around a list does not matter. -/
theorem items_trim (cs : List Char) : items (Text.trim cs) = items cs := by
  obtain ⟨gap, gap', hgap, hgap', hcs⟩ := Text.exists_gaps cs
  nth_rewrite 2 [hcs]
  rw [items_append_left hgap, items_append_right _ hgap']

theorem items_append_comma (cs ds : List Char) :
    items (cs ++ ',' :: ds) = items cs ++ items ds := by
  rw [items, splitCommas_append_comma, List.map_append, items, items]

theorem items_of_not_mem (h : ',' ∉ cs) : items cs = [Text.trim cs] := by
  rw [items, splitCommas_of_not_mem h, List.map_singleton]

/-! ### Lists of values -/

/-- Items with a comma and a blank between them. -/
def itemList (xs : List (List Char)) : List Char := [',', ' '].intercalate xs

variable {xs : List (List Char)}

theorem itemList_cons_cons (x y : List Char) (xs : List (List Char)) :
    itemList (x :: y :: xs) = x ++ ',' :: ' ' :: itemList (y :: xs) := by
  rw [itemList, List.intercalate_cons_cons, List.append_assoc]
  rfl

theorem items_itemList_cons_cons (x y : List Char) (xs : List (List Char)) :
    items (itemList (x :: y :: xs)) = items x ++ items (itemList (y :: xs)) := by
  rw [itemList_cons_cons, items_append_comma, items_cons_blank]

/-- The items of a list are those of its parts. -/
theorem items_itemList (hne : xs ≠ []) : items (itemList xs) = xs.flatMap items := by
  induction xs with
  | nil => exact absurd rfl hne
  | cons x xs ih =>
    cases xs with
    | nil => rw [itemList, List.intercalate_singleton, List.flatMap_singleton]
    | cons y xs =>
      rw [items_itemList_cons_cons, ih (List.cons_ne_nil y xs)]
      rfl

/-- The literal of a comma. -/
def commaLiteral : List Char := ['\x27', ',', '\x27']

/-- What is left of a literal that has been torn apart. -/
def loneQuote : List Char := ['\x27']

theorem Operand.not_spelled_loneQuote (x : Operand) : ¬ x.Spelled loneQuote := by
  rw [← Operand.parse_eq_ok_iff]
  rintro ⟨⟩

/-- The literal of a comma is torn apart by the comma. -/
theorem lone_quote_of_comma (hx : Text.trim x = commaLiteral) : loneQuote ∈ items x := by
  rw [← items_trim, hx]
  decide

/-- The literal of a semicolon is torn apart by a comment that starts in it. -/
theorem lone_quote_of_value (hv : parseValue (cs ++ ';' :: ds) = .ok v) : loneQuote ∈ items cs := by
  have htrim := trim_of_separator (.inr rfl) hv (List.mem_append_right cs List.mem_cons_self)
  obtain ⟨gap, gap', hgap, hgap', hsplit⟩ := Text.exists_gaps (cs ++ ';' :: ds)
  have hvisible : ∀ {blank : List Char}, (∀ c ∈ blank, Text.isBlank c = true) → ';' ∉ blank := by
    intro blank hblank hmem
    cases hblank ';' hmem
  rw [htrim] at hsplit
  -- there is one semicolon only, so the text ends at the first quote
  have hcs : cs = gap ++ loneQuote := by
    have hsemicolon : ';' ∉ gap ++ loneQuote := by
      simp [loneQuote, hvisible hgap]
    have hbehind : ';' ∉ '\x27' :: gap' := by
      simp [hvisible hgap']
    have heq : gap ++ loneQuote ++ ';' :: '\x27' :: gap' = cs ++ ';' :: ds := by
      rw [hsplit]
      simp [loneQuote]
    exact ((List.append_cons_inj_of_notMem hsemicolon hbehind).1 heq).1.symm
  rw [hcs, items_append_left hgap]
  decide

/-- A comment that starts in a list of values leaves a lone quote before it. -/
theorem lone_quote_of_semicolon (hxs : ∀ x ∈ xs, ∃ v, parseValue x = .ok v)
    (h : itemList xs = cs ++ ';' :: ds) : loneQuote ∈ items cs := by
  induction xs generalizing cs with
  | nil =>
    exact absurd h.symm (List.append_ne_nil_of_right_ne_nil cs (List.cons_ne_nil ';' ds))
  | cons x xs ih =>
    obtain ⟨⟨v, hv⟩, hrest⟩ := List.forall_mem_cons.1 hxs
    cases xs with
    | nil =>
      rw [itemList, List.intercalate_singleton] at h
      rw [h] at hv
      exact lone_quote_of_value hv
    | cons y xs =>
      rw [itemList_cons_cons, List.append_eq_append_iff] at h
      rcases h with ⟨rest, rfl, htail⟩ | ⟨rest, hx, htail⟩
      · -- the comment starts behind the first item
        obtain ⟨front, hfront⟩ : ∃ front, rest = ',' :: ' ' :: front := by
          match rest, htail with
          | [], htail => cases (List.cons.inj htail).1
          | [_], htail => cases (List.cons.inj (List.cons.inj htail).2).1
          | c :: c' :: front, htail =>
            obtain ⟨hc, htail⟩ := List.cons.inj htail
            exact ⟨front, by rw [hc, (List.cons.inj htail).1]⟩
        subst hfront
        have hitems := ih hrest (List.cons.inj (List.cons.inj htail).2).2
        rw [items_append_comma, items_cons_blank]
        exact List.mem_append_right _ hitems
      · cases rest with
        | nil =>
          cases htail
        | cons c rest =>
          cases htail
          rw [hx] at hv
          exact lone_quote_of_value hv

/-! ### Sources of immediates and of data words -/

/-- An operand of `PUSH`, on one line and without comment, and the image of the instruction. -/
structure Pushed (x : String) (image : Array UInt8) : Prop where
  newline_not_mem : '\n' ∉ x.toList
  comment_free : stripComment x.toList = x.toList
  assembled : assemble ("PUSH " ++ x) = .ok image

/-- A source of one line with data words. -/
def wordLine (xs : List String) : String := ".word " ++ ", ".intercalate xs

/-- The items of a line of data words stay apart: no comma is among their characters, and the line
has no comment. -/
structure Separable (xs : List String) : Prop where
  comma_free : ∀ x ∈ xs, Text.trim x.toList ≠ commaLiteral
  comment_free : stripComment (wordLine xs).toList = (wordLine xs).toList

section

variable {x : String} {xs : List String} {image : Array UInt8} {images : List (Array UInt8)}
  {vs : List Word}

/-- An instruction with an immediate is spelled by its operand. -/
theorem spelled_mnemonic_iff {op : Opcode} {s : Statement} {operand : List Char}
    (hop : op.hasImmediate = true) :
    s.Spelled op.mnemonic.toList operand ↔
      ∃ y : Operand, s = .immediate op y ∧ y.Spelled operand := by
  obtain ⟨-, hdot, hof⟩ := isWord_mnemonic op
  have hsame : ∀ {op' : Opcode}, EqIgnoringCase op.mnemonic.toList op'.mnemonic.toList →
      op' = op := by
    intro op' heq
    exact Option.some.inj ((ofMnemonic?_eq_some_iff.2 heq).symm.trans hof)
  constructor
  · intro h
    cases h with
    | plain heq hplain =>
      cases hsame heq
      rw [hop] at hplain
      cases hplain
    | immediate heq _ hy =>
      cases hsame heq
      exact ⟨_, rfl, hy⟩
    | origin heq => exact absurd (heq.symm.head?_eq (by decide) rfl) hdot
    | words heq => exact absurd (heq.symm.head?_eq (by decide) rfl) hdot
    | bytes heq => exact absurd (heq.symm.head?_eq (by decide) rfl) hdot
    | string heq => exact absurd (heq.symm.head?_eq (by decide) rfl) hdot
  · rintro ⟨y, rfl, hy⟩
    exact .immediate rfl hop hy

/-- A list of words is spelled by the items of its operand. -/
theorem spelled_word_iff {s : Statement} {operand : List Char} :
    s.Spelled ".word".toList operand ↔
      ∃ ops, s = .words ops ∧ List.Forall₂ Operand.Spelled ops (items operand) := by
  constructor
  · intro h
    cases h with
    | plain heq => exact absurd (heq.head?_eq (by decide) rfl) (isWord_mnemonic _).2.1
    | immediate heq => exact absurd (heq.head?_eq (by decide) rfl) (isWord_mnemonic _).2.1
    | words _ hpieces hops =>
      rw [pieces_iff.1 hpieces] at hops
      exact ⟨_, rfl, hops⟩
    | origin heq => exact absurd heq (by rw [EqIgnoringCase]; decide)
    | bytes heq => exact absurd heq (by rw [EqIgnoringCase]; decide)
    | string heq => exact absurd heq (by rw [EqIgnoringCase]; decide)
  · rintro ⟨ops, rfl, hops⟩
    exact .words rfl (pieces_splitCommas operand) hops

/-- What `PUSH` takes is a value, and the image holds it behind the opcode. -/
theorem Pushed.exists_value (h : Pushed x image) :
    ∃ v, parseValue x.toList = .ok v ∧ image = (Opcode.push.byte :: Word.encode v).toArray := by
  have hname : IsWord "PUSH".toList := (isWord_mnemonic .push).1
  have hsource : ("PUSH " ++ x).toList = "PUSH".toList ++ ' ' :: x.toList := by simp
  have hcomment : stripComment ("PUSH " ++ x).toList = "PUSH".toList ++ ' ' :: x.toList := by
    rw [hsource, stripComment_name hname, h.comment_free]
  have hline : '\n' ∉ ("PUSH " ++ x).toList := by
    rw [hsource]
    simp [h.newline_not_mem]
  obtain ⟨s, hs, hlabels, rfl⟩ := (assemble_line_iff hname hline hcomment).1 h.assembled
  have hpush : Opcode.push.hasImmediate = true := rfl
  obtain ⟨y, rfl, hy⟩ := (spelled_mnemonic_iff hpush).1 hs
  cases hy with
  | label => cases hlabels
  | value hv =>
    refine ⟨_, ?_, image_emit_immediate _ _⟩
    rwa [parseValue, Text.trim_trim, ← parseValue] at hv

theorem exists_values (h : List.Forall₂ Pushed xs images) :
    ∃ vs : List Word, List.Forall₂ (fun v x => parseValue x = .ok v) vs (xs.map String.toList) ∧
      images = vs.map fun v => (Opcode.push.byte :: Word.encode v).toArray := by
  induction h with
  | nil => exact ⟨[], .nil, rfl⟩
  | cons hx _ ih =>
    obtain ⟨v, hv, rfl⟩ := hx.exists_value
    obtain ⟨vs, hvs, rfl⟩ := ih
    exact ⟨v :: vs, .cons hv hvs, rfl⟩

theorem toList_wordLine (xs : List String) :
    (wordLine xs).toList = ".word".toList ++ ' ' :: itemList (xs.map String.toList) := by
  simp [wordLine, itemList, String.toList_intercalate]

theorem stripComment_wordLine (xs : List String) :
    stripComment (wordLine xs).toList =
      ".word".toList ++ ' ' :: stripComment (itemList (xs.map String.toList)) := by
  have hname : IsWord ".word".toList := ⟨by decide, List.all_eq_true.1 (by decide)⟩
  rw [toList_wordLine, stripComment_name hname]

theorem newline_not_mem_itemList {xs : List (List Char)} (h : ∀ x ∈ xs, '\n' ∉ x) :
    '\n' ∉ itemList xs := by
  induction xs with
  | nil => exact List.not_mem_nil
  | cons x xs ih =>
    obtain ⟨hx, hrest⟩ := List.forall_mem_cons.1 h
    cases xs with
    | nil => rwa [itemList, List.intercalate_singleton]
    | cons y xs =>
      rw [itemList_cons_cons]
      simp [hx, ih hrest]

/-- Data words that are emitted at the end are appended. -/
theorem toList_foldl_emit {b : Builder} (h : b.AtEnd) (vs : List Word) :
    ((vs.map Operand.value).foldl Operand.emit b).image.toList =
      b.image.toList ++ vs.flatMap Word.encode := by
  induction vs generalizing b with
  | nil => exact (List.append_nil _).symm
  | cons v vs ih =>
    have hv : ((Operand.value v).emit b).AtEnd := h.bytes _
    have himage : ((Operand.value v).emit b).image.toList = b.image.toList ++ v.encode :=
      h.image_bytes _
    rw [List.map_cons, List.foldl_cons, ih hv, himage, List.flatMap_cons, List.append_assoc]

/-- A line of data words assembles to its operands, as far as they are not in a comment. -/
theorem assemble_wordLine_iff (hxs : ∀ x ∈ xs, '\n' ∉ x.toList) :
    assemble (wordLine xs) = .ok image ↔
      ∃ ops, List.Forall₂ Operand.Spelled ops
          (items (stripComment (itemList (xs.map String.toList)))) ∧
        (Statement.words ops).labels = [] ∧
        ((Statement.words ops).emit .empty).image = image := by
  have hname : IsWord ".word".toList := ⟨by decide, List.all_eq_true.1 (by decide)⟩
  have hline : '\n' ∉ (wordLine xs).toList := by
    have hitems := newline_not_mem_itemList (List.forall_mem_map.2 hxs)
    rw [toList_wordLine]
    simp [hitems]
  rw [assemble_line_iff hname hline (stripComment_wordLine xs)]
  simp only [spelled_word_iff, items_trim]
  constructor
  · rintro ⟨s, ⟨ops, rfl, hops⟩, hrest⟩
    exact ⟨ops, hops, hrest⟩
  · rintro ⟨ops, hops, hrest⟩
    exact ⟨_, ⟨ops, rfl, hops⟩, hrest⟩

/-- Values without commas are items as they are. -/
theorem items_itemList_of_separable {ys : List (List Char)} (hne : ys ≠ [])
    (hvs : List.Forall₂ (fun v x => parseValue x = .ok v) vs ys)
    (hcomma : ∀ y ∈ ys, Text.trim y ≠ commaLiteral) :
    List.Forall₂ Operand.Spelled (vs.map .value) (items (itemList ys)) := by
  rw [items_itemList hne]
  clear hne
  induction hvs with
  | nil => exact .nil
  | cons hv _ ih =>
    obtain ⟨hx, hrest⟩ := List.forall_mem_cons.1 hcomma
    have hnot : ',' ∉ _ := fun hmem => hx (trim_of_separator (.inl rfl) hv hmem)
    rw [List.flatMap_cons, items_of_not_mem hnot, List.map_cons, List.singleton_append]
    refine .cons (.value ?_) (ih hrest)
    rwa [parseValue, Text.trim_trim, ← parseValue]

theorem Pushed.newline_not_mem_of_forall₂ (h : List.Forall₂ Pushed xs images) :
    ∀ x ∈ xs, '\n' ∉ x.toList := by
  intro x hx
  obtain ⟨image, hpushed⟩ := exists_of_mem_of_forall₂ h.flip hx
  exact hpushed.newline_not_mem

/-- Values that assemble as data words stay apart. -/
theorem separable_of_assemble (hne : xs ≠ []) (h : List.Forall₂ Pushed xs images)
    (himage : assemble (wordLine xs) = .ok image) : Separable xs := by
  obtain ⟨vs, hvs, -⟩ := exists_values h
  obtain ⟨ops, hops, -⟩ := (assemble_wordLine_iff (Pushed.newline_not_mem_of_forall₂ h)).1 himage
  have hlone : loneQuote ∉ items (stripComment (itemList (xs.map String.toList))) := by
    intro hmem
    obtain ⟨op, hop⟩ := exists_of_mem_of_forall₂ hops hmem
    exact Operand.not_spelled_loneQuote op hop
  have hvalue : ∀ x ∈ xs.map String.toList, ∃ v, parseValue x = .ok v := by
    intro x hx
    exact exists_of_mem_of_forall₂ hvs hx
  have hcomment : stripComment (itemList (xs.map String.toList)) =
      itemList (xs.map String.toList) := by
    by_contra hcut
    obtain ⟨ds, hds⟩ := eq_append_of_dropComment_ne hcut
    exact hlone (lone_quote_of_semicolon hvalue hds)
  refine ⟨?_, ?_⟩
  · intro x hx hcomma
    rw [hcomment, items_itemList (mt List.map_eq_nil_iff.1 hne)] at hlone
    exact hlone (List.mem_flatMap.2
      ⟨x.toList, List.mem_map_of_mem hx, lone_quote_of_comma hcomma⟩)
  · rw [stripComment_wordLine, hcomment, ← toList_wordLine]

/-- Values that stay apart assemble to their words. -/
theorem assemble_of_separable (hne : xs ≠ []) (h : List.Forall₂ Pushed xs images)
    (hxs : Separable xs) :
    assemble (wordLine xs) = .ok (images.flatMap fun image => image.toList.drop 1).toArray := by
  obtain ⟨vs, hvs, rfl⟩ := exists_values h
  have hcomment : stripComment (itemList (xs.map String.toList)) =
      itemList (xs.map String.toList) := by
    have hline := hxs.comment_free
    rw [stripComment_wordLine, toList_wordLine] at hline
    exact (List.cons.inj (List.append_cancel_left hline)).2
  refine (assemble_wordLine_iff (Pushed.newline_not_mem_of_forall₂ h)).2
    ⟨vs.map .value, ?_, ?_, ?_⟩
  · rw [hcomment]
    exact items_itemList_of_separable (mt List.map_eq_nil_iff.1 hne) hvs
      (List.forall_mem_map.2 hxs.comma_free)
  · rw [Statement.labels, List.flatMap_map]
    exact List.flatMap_eq_nil_iff.2 fun v _ => rfl
  · have himage := toList_foldl_emit Builder.atEnd_empty vs
    rw [← Array.toList_inj, List.flatMap_map]
    exact himage

/-- A value stands alone in a line of data words unless it is the literal of a comma. -/
theorem separable_singleton_iff (h : Pushed x image) :
    Separable [x] ↔ Text.trim x.toList ≠ commaLiteral := by
  constructor
  · intro hx
    exact hx.comma_free x List.mem_cons_self
  · intro hx
    refine ⟨List.forall_mem_singleton.2 hx, ?_⟩
    rw [stripComment_wordLine, toList_wordLine, List.map_singleton, itemList,
      List.intercalate_singleton, h.comment_free]

/-- A list of texts after each of which the scan is outside literals has no comment. -/
theorem stripComment_itemList {ys : List (List Char)}
    (h : ∀ y ∈ ys, stripComment y = y ∧ Scan.outside.after y = .outside) :
    stripComment (itemList ys) = itemList ys := by
  induction ys with
  | nil => rfl
  | cons y ys ih =>
    obtain ⟨⟨hy, hafter⟩, hrest⟩ := List.forall_mem_cons.1 h
    cases ys with
    | nil => rwa [itemList, List.intercalate_singleton]
    | cons z ys =>
      have hnext : ∀ rest, dropComment .outside (',' :: ' ' :: rest) =
          ',' :: ' ' :: stripComment rest := fun _ => rfl
      rw [itemList_cons_cons, stripComment, dropComment_append hy, hafter, hnext, ih hrest]

/-- Values stay apart if none is the literal of a comma or of a quote. -/
theorem separable_of_literals (h : List.Forall₂ Pushed xs images)
    (hxs : ∀ x ∈ xs, Text.trim x.toList ≠ commaLiteral ∧ Text.trim x.toList ≠ quoteLiteral) :
    Separable xs := by
  refine ⟨fun x hx => (hxs x hx).1, ?_⟩
  have hscan : ∀ y ∈ xs.map String.toList, stripComment y = y ∧
      Scan.outside.after y = .outside := by
    refine List.forall_mem_map.2 fun x hx => ?_
    obtain ⟨image, hpushed⟩ := exists_of_mem_of_forall₂ h.flip hx
    obtain ⟨v, hv, -⟩ := hpushed.exists_value
    exact ⟨hpushed.comment_free, after_value hv (hxs x hx).2⟩
  rw [stripComment_wordLine, stripComment_itemList hscan, toList_wordLine]

/-- **Data words are immediates.**  Operands that `PUSH` takes are values, and `.word` makes the
bytes of them that stand behind the opcodes, one operand after the other.  It does so if the line
splits into the operands again, and otherwise it fails.  The line splits so if no operand is the
literal of a comma or of a quote without backslash, and for an operand alone the comma is the only
exception. -/
theorem data_words_match_immediates {xs : List String} {images : List (Array UInt8)}
    (hne : xs ≠ []) (h : List.Forall₂ Pushed xs images) :
    (∀ image ∈ images, ∃ v : Word, image = (Opcode.push.byte :: v.encode).toArray) ∧
      ((∃ image, assemble (wordLine xs) = .ok image) ↔ Separable xs) ∧
      (Separable xs → assemble (wordLine xs) =
        .ok (images.flatMap fun image => image.toList.drop 1).toArray) ∧
      ((∀ x ∈ xs, Text.trim x.toList ≠ commaLiteral ∧ Text.trim x.toList ≠ quoteLiteral) →
        Separable xs) ∧
      ∀ x, xs = [x] → (Separable xs ↔ Text.trim x.toList ≠ commaLiteral) := by
  refine ⟨?_, ⟨?_, ?_⟩, assemble_of_separable hne h, separable_of_literals h, ?_⟩
  · intro image himage
    obtain ⟨x, hx⟩ := exists_of_mem_of_forall₂ h himage
    obtain ⟨v, -, hv⟩ := hx.exists_value
    exact ⟨v, hv⟩
  · rintro ⟨image, himage⟩
    exact separable_of_assemble hne h himage
  · intro hxs
    exact ⟨_, assemble_of_separable hne h hxs⟩
  · rintro x rfl
    obtain ⟨image, hx⟩ := exists_of_mem_of_forall₂ h.flip List.mem_cons_self
    exact separable_singleton_iff hx

/-- A semicolon, a negative number with blanks around it, and a quote. -/
theorem data_words_match_immediates_mixed :
    Pushed "';'" #[1, 59, 0, 0, 0] ∧ Pushed "\t-0x2 " #[1, 254, 255, 255, 255] ∧
      Pushed "'''" #[1, 39, 0, 0, 0] ∧
      assemble (wordLine ["';'", "\t-0x2 ", "'''"]) =
        .ok #[59, 0, 0, 0, 254, 255, 255, 255, 39, 0, 0, 0] := by
  have hsemicolon : Pushed "';'" #[1, 59, 0, 0, 0] :=
    ⟨by decide, by decide, by decide +kernel⟩
  have hnegative : Pushed "\t-0x2 " #[1, 254, 255, 255, 255] :=
    ⟨by decide, by decide, by decide +kernel⟩
  have hquote : Pushed "'''" #[1, 39, 0, 0, 0] :=
    ⟨by decide, by decide, by decide +kernel⟩
  obtain ⟨-, -, hwords, -⟩ := data_words_match_immediates (by decide)
    (.cons hsemicolon (.cons hnegative (.cons hquote .nil)))
  exact ⟨hsemicolon, hnegative, hquote, hwords ⟨by decide, by decide +kernel⟩⟩

/-- Literals that `PUSH` takes and lists of words do not: the comma splits its own literal, and a
quote between quotes leaves the semicolon behind it to start a comment. -/
theorem data_words_split_literals :
    assemble "PUSH ','" = .ok #[1, 44, 0, 0, 0] ∧
      assemble ".word ','" = .error (.badLine 1 .openCharacter) ∧
      assemble ".word '''" = .ok #[39, 0, 0, 0] ∧
      assemble ".word ';'" = .ok #[59, 0, 0, 0] ∧
      assemble ".word ''', ';'" = .error (.badLine 1 .openCharacter) := by
  decide +kernel

end

end Assembly

end TapeMachine
