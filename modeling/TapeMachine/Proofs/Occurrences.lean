import TapeMachine.Proofs.Snippets

/-!
# Operands and where they are written

A program with one operand left open (`Assembly.Site`) becomes a program again when the operand is
filled in.  If a text spells it with a label there, then the name of the label stands somewhere in
the text, and writing another operand in its place spells the program with that operand
(`Assembly.exists_occurrence`).

What stands around the operand is read as before, because names of labels and numbers are tokens:
they have no white space, no separators, no quotes and no backslashes.  So a token is one piece
between commas and in white space, and it leaves the scan for comments where it was, also where the
scan takes it to be inside a literal.
-/

namespace TapeMachine

namespace Text

variable {front back x y cs : List Char}

/-- A trimmed text starts with something visible. -/
theorem head?_visible (h : trim cs = cs) : ∀ c ∈ cs.head?, isBlank c = false := by
  obtain ⟨gap', -, hcs⟩ := exists_append_trim cs
  have hgap : cs.takeWhile isBlank = [] := by
    have hlength := congrArg List.length hcs
    rw [h, List.length_append, List.length_append] at hlength
    exact List.length_eq_zero_iff.1 (by omega)
  intro c hc
  cases cs with
  | nil => cases hc
  | cons d cs =>
    cases hc
    by_contra hblank
    rw [Bool.not_eq_false] at hblank
    rw [List.takeWhile_cons_of_pos hblank] at hgap
    cases hgap

/-- A text stays trimmed if something in it is exchanged for something visible. -/
theorem trim_exchange (hy : y ≠ []) (hvisible : ∀ c ∈ y, isBlank c = false)
    (h : trim (front ++ (x ++ back)) = front ++ (x ++ back)) :
    trim (front ++ (y ++ back)) = front ++ (y ++ back) := by
  refine trim_of_ends (fun c hc => ?_) fun c hc => ?_
  · cases front with
    | nil =>
      rw [List.nil_append, List.head?_append_of_ne_nil _ hy] at hc
      exact hvisible c (List.mem_of_mem_head? hc)
    | cons d front => exact head?_visible h c hc
  · by_cases hback : back = []
    · rw [hback, List.append_nil, List.getLast?_append_of_ne_nil _ hy] at hc
      exact hvisible c (List.mem_of_getLast? hc)
    · rw [← List.append_assoc, List.getLast?_append_of_ne_nil _ hback] at hc
      refine getLast?_visible h c ?_
      rwa [← List.append_assoc, List.getLast?_append_of_ne_nil _ hback]

end Text

namespace Assembly

variable {s : Scan} {front back cs ds es x y : List Char} {c : Char}

/-! ### Tokens -/

/-- A word without backslashes: it means the same inside and outside literals. -/
structure IsToken (cs : List Char) : Prop extends IsWord cs where
  backslash_not_mem : '\x5c' ∉ cs

namespace IsToken

theorem not_isBlank (h : IsToken cs) : ∀ c ∈ cs, Text.isBlank c = false := fun c hc =>
  isBlank_of_isPlain (h.plain c hc)

theorem not_mem_of_reserved (h : IsToken cs) (hc : isPlain c = false) : c ∉ cs := by
  intro hmem
  rw [h.plain c hmem] at hc
  cases hc

theorem not_isQuote (h : IsToken cs) : ∀ c ∈ cs, ¬ IsQuote c := by
  intro c hc hquote
  rcases hquote with rfl | rfl
  · exact h.not_mem_of_reserved (by decide) hc
  · exact h.not_mem_of_reserved (by decide) hc

theorem trim_eq (h : IsToken cs) : Text.trim cs = cs := trim_of_plain h.plain

end IsToken

theorem IsIdentifier.isToken (h : IsIdentifier cs) : IsToken cs := by
  have hall : (('\x5c' :: reserved).all fun d => !isIdentifierPart d) = true := by decide
  have hnot : ∀ d ∈ '\x5c' :: reserved, d ∉ cs := by
    intro d hd hmem
    have hpart : isIdentifierPart d = true := by
      simp only [isIdentifierPart, Bool.or_eq_true, decide_eq_true_eq, or_assoc]
      exact h.part hmem
    have hd := List.all_eq_true.1 hall d hd
    rw [hpart] at hd
    cases hd
  refine ⟨⟨h.ne_nil, fun c hc => ?_⟩, hnot _ List.mem_cons_self⟩
  have hreserved : reserved.contains c = false := by
    rw [List.contains_eq_mem, decide_eq_false_iff_not]
    exact fun hmem => hnot c (List.mem_cons_of_mem _ hmem) hc
  rw [isPlain, (h.visible hc).1, hreserved]
  rfl

theorem isToken_toString (n : Int) : IsToken (toString n).toList := by
  refine ⟨⟨toList_toString_ne_nil n, fun c => plain_of_mem_toString⟩, fun hmem => ?_⟩
  rcases Text.eq_or_exists_digitChar_of_mem_toString hmem with heq | ⟨d, hd, heq⟩
  · cases heq
  · revert heq
    revert d
    decide

/-! ### The scan for comments -/

/-- Where the scan stands after a token. -/
def Scan.settle : Scan → Scan
  | escaped q => inside q
  | s => s

/-- The literals that a scan is in stand between quotes. -/
def Scan.Quoted : Scan → Prop
  | outside => True
  | inside q => IsQuote q
  | escaped q => IsQuote q

theorem Scan.Quoted.next (h : s.Quoted) (c : Char) : (s.next c).Quoted := by
  cases s with
  | outside =>
    rw [Scan.next]
    split
    · assumption
    · trivial
  | inside q =>
    rw [Scan.next]
    split
    · exact h
    · split
      · trivial
      · exact h
  | escaped q => exact h

theorem Scan.Quoted.after (h : s.Quoted) (cs : List Char) : (s.after cs).Quoted := by
  induction cs generalizing s with
  | nil => exact h
  | cons c cs ih => exact ih (h.next c)

theorem Scan.Quoted.settle (h : s.Quoted) : s.settle.Quoted := by
  cases s <;> exact h

theorem Scan.next_of_not_isQuote (h : s.Quoted) (hquote : ¬ IsQuote c) (hc : c ≠ '\x5c') :
    s.next c = s.settle := by
  cases s with
  | outside => exact if_neg hquote
  | inside q =>
    have hne : c ≠ q := by
      rintro rfl
      exact hquote h
    rw [Scan.next, if_neg hc, if_neg hne]
    rfl
  | escaped q => rfl

/-- Where the scan is not behind a backslash, it stays. -/
theorem Scan.after_settle (h : s.Quoted) (hcs : ∀ c ∈ cs, ¬ IsQuote c ∧ c ≠ '\x5c') :
    s.settle.after cs = s.settle := by
  induction cs with
  | nil => rfl
  | cons c cs ih =>
    obtain ⟨⟨hquote, hc⟩, hrest⟩ := List.forall_mem_cons.1 hcs
    have hnext : s.settle.next c = s.settle := by
      rw [Scan.next_of_not_isQuote h.settle hquote hc]
      cases s <;> rfl
    rw [Scan.after, List.foldl_cons, hnext]
    exact ih hrest

/-- A token ends an escape and changes nothing else. -/
theorem Scan.after_of_isToken (h : s.Quoted) (hx : IsToken x) : s.after x = s.settle := by
  have hplain : ∀ c ∈ x, ¬ IsQuote c ∧ c ≠ '\x5c' := by
    intro c hc
    refine ⟨hx.not_isQuote c hc, ?_⟩
    rintro rfl
    exact hx.backslash_not_mem hc
  -- the first character settles the scan, and the others leave it there
  obtain ⟨c, rest, rfl⟩ := List.exists_cons_of_ne_nil hx.ne_nil
  obtain ⟨⟨hquote, hc⟩, hrest⟩ := List.forall_mem_cons.1 hplain
  rw [Scan.after, List.foldl_cons, Scan.next_of_not_isQuote h hquote hc]
  exact Scan.after_settle h hrest

theorem dropComment_of_isToken (hx : IsToken x) (s : Scan) : dropComment s x = x :=
  dropComment_of_not_mem (hx.not_mem_of_reserved (by decide)) s

/-- If what is left of a text starts with its first part, then that part has no comment. -/
theorem dropComment_append_eq (h : dropComment s (cs ++ ds) = cs ++ es) :
    dropComment s cs = cs ∧ dropComment (s.after cs) ds = es := by
  induction cs generalizing s with
  | nil => exact ⟨rfl, h⟩
  | cons c cs ih =>
    rw [List.cons_append, dropComment] at h
    split at h
    · cases h
    · rename_i hc
      obtain ⟨hcs, hds⟩ := ih (List.cons.inj h).2
      exact ⟨by rw [dropComment, if_neg hc, hcs], hds⟩

/-- The comment of a line stays the same if a token in front of it is exchanged for another. -/
theorem stripComment_exchange (hx : IsToken x) (hy : IsToken y)
    (h : stripComment (front ++ (x ++ ds)) = front ++ (x ++ es)) :
    stripComment (front ++ (y ++ ds)) = front ++ (y ++ es) := by
  have houtside : Scan.outside.Quoted := trivial
  have hquoted := houtside.after front
  obtain ⟨hfront, hrest⟩ := dropComment_append_eq h
  obtain ⟨-, hes⟩ := dropComment_append_eq hrest
  rw [Scan.after_of_isToken hquoted hx] at hes
  rw [stripComment, dropComment_append hfront, dropComment_append (dropComment_of_isToken hy _),
    Scan.after_of_isToken hquoted hy, hes]

theorem exists_append_stripComment (cs : List Char) : ∃ rest, cs = stripComment cs ++ rest := by
  by_cases hcs : stripComment cs = cs
  · exact ⟨[], by rw [hcs, List.append_nil]⟩
  · obtain ⟨ds, hds⟩ := eq_append_of_dropComment_ne hcs
    exact ⟨';' :: ds, hds⟩

/-! ### Operands of statements -/

/-- A statement with an operand left open. -/
inductive Frame
  /-- An instruction and its operand. -/
  | immediate (op : Opcode)
  /-- A list of words and one of its items. -/
  | words (before after : List Operand)

/-- The statement with its operand. -/
def Frame.fill (x : Operand) : Frame → Statement
  | immediate op => .immediate op x
  | words before after => .words (before ++ x :: after)

variable {frame : Frame} {name : String} {labels : List String}
  {mnemonic operand : List Char}

theorem exists_forall₂_append_cons {α β : Type} {R : α → β → Prop} {xs xs' : List α} {x : α}
    {ys : List β} (h : List.Forall₂ R (xs ++ x :: xs') ys) :
    ∃ zs z zs', ys = zs ++ z :: zs' ∧ List.Forall₂ R xs zs ∧ R x z ∧ List.Forall₂ R xs' zs' := by
  induction xs generalizing ys with
  | nil =>
    obtain ⟨z, zs', hz, hzs', rfl⟩ := List.forall₂_cons_left_iff.1 h
    exact ⟨[], z, zs', rfl, .nil, hz, hzs'⟩
  | cons x' xs ih =>
    obtain ⟨z', rest, hz', hrest, rfl⟩ := List.forall₂_cons_left_iff.1 h
    obtain ⟨zs, z, zs', rfl, hzs, hz, hzs'⟩ := ih hrest
    exact ⟨z' :: zs, z, zs', rfl, .cons hz' hzs, hz, hzs'⟩

/-- A list of pieces around one of them. -/
theorem intercalate_append_cons (pieces : List (List Char)) (piece : List Char)
    (pieces' : List (List Char)) :
    [','].intercalate (pieces ++ piece :: pieces') =
      pieces.flatMap (· ++ [',']) ++ (piece ++ pieces'.flatMap (',' :: ·)) := by
  induction pieces with
  | nil =>
    induction pieces' generalizing piece with
    | nil => simp
    | cons next pieces' ih =>
      rw [List.nil_append, List.intercalate_cons_cons, ← List.nil_append (next :: pieces'), ih]
      simp
  | cons first pieces ih =>
    obtain ⟨next, rest, hrest⟩ : ∃ next rest, pieces ++ piece :: pieces' = next :: rest :=
      List.exists_cons_of_ne_nil (by simp)
    rw [List.cons_append, hrest, List.intercalate_cons_cons, ← hrest, ih]
    simp

/-- A piece of a list can be exchanged for a token, and the white space around it stays. -/
theorem Pieces.exists_exchange {pieces pieces' : List (List Char)} {piece : List Char}
    (h : Pieces cs (pieces ++ piece :: pieces')) :
    ∃ front back, cs = front ++ (Text.trim piece ++ back) ∧
      ∀ y, IsToken y → ∃ new, Text.trim new = y ∧
        Pieces (front ++ (y ++ back)) (pieces ++ new :: pieces') := by
  obtain ⟨-, hcomma, rfl⟩ := h
  obtain ⟨gap, gap', hgap, hgap', hpiece⟩ := Text.exists_gaps piece
  refine ⟨pieces.flatMap (· ++ [',']) ++ gap, gap' ++ pieces'.flatMap (',' :: ·), ?_, ?_⟩
  · rw [intercalate_append_cons]
    nth_rewrite 1 [hpiece]
    simp
  · intro y hy
    refine ⟨gap ++ (y ++ gap'), by rw [Text.trim_append hgap hgap', hy.trim_eq], by simp, ?_, ?_⟩
    · intro new hnew
      rcases List.mem_append.1 hnew with hmem | hmem
      · exact hcomma new (List.mem_append_left _ hmem)
      · rcases List.mem_cons.1 hmem with rfl | hmem
        · have hold := hcomma piece (List.mem_append_right _ List.mem_cons_self)
          rw [hpiece] at hold
          simp only [List.mem_append, not_or] at hold ⊢
          exact ⟨hold.1, hy.not_mem_of_reserved (by decide), hold.2.2⟩
        · exact hcomma new (List.mem_append_right _ (List.mem_cons_of_mem _ hmem))
    · rw [intercalate_append_cons]
      simp

/-- A label stands in the operand of its statement, and other operands can be written there. -/
theorem Statement.exists_operand (h : (frame.fill (.label name)).Spelled mnemonic operand) :
    IsIdentifier name.toList ∧ ∃ front back, operand = front ++ (name.toList ++ back) ∧
      ∀ y (x : Operand), IsToken y → x.Spelled y →
        (frame.fill x).Spelled mnemonic (front ++ (y ++ back)) := by
  cases frame with
  | immediate op =>
    rw [Frame.fill] at h
    cases h with
    | immediate hname hop hx =>
      cases hx with
      | label hid =>
        rw [String.toList_ofList]
        refine ⟨hid, [], [], by simp, fun y x hy hx => ?_⟩
        rw [List.nil_append, List.append_nil]
        exact .immediate hname hop hx
  | words before after =>
    rw [Frame.fill] at h
    cases h with
    | words hname hpieces hxs =>
      rw [List.forall₂_map_right_iff] at hxs
      obtain ⟨pieces, piece, pieces', rfl, hbefore, hpiece, hafter⟩ :=
        exists_forall₂_append_cons hxs
      obtain ⟨front, back, rfl, hnew⟩ := hpieces.exists_exchange
      generalize Text.trim piece = token at hpiece
      cases hpiece with
      | label hid =>
        rw [String.toList_ofList]
        refine ⟨hid, front, back, rfl, fun y x hy hx => ?_⟩
        obtain ⟨new, htrim, hpieces'⟩ := hnew y hy
        refine .words hname hpieces' ?_
        rw [List.forall₂_map_right_iff]
        exact List.rel_append hbefore (.cons (by rwa [htrim]) hafter)

/-! ### Operands of lines -/

/-- A token in the operand of a statement can be exchanged for another. -/
theorem Parted.exists_exchange (h : Parted cs mnemonic (front ++ (x ++ back))) (hx : IsToken x) :
    ∃ start stop, cs = start ++ (x ++ stop) ∧
      ∀ y, IsToken y → Parted (start ++ (y ++ stop)) mnemonic (front ++ (y ++ back)) := by
  obtain ⟨hvisible, htrimmed, gap, gap', hgap, hgap', hne, rfl⟩ := h
  refine ⟨mnemonic ++ (gap ++ front), back ++ gap', by simp, fun y hy => ?_⟩
  have hoperand : front ++ (x ++ back) ≠ [] := by simp [hx.ne_nil]
  exact ⟨hvisible, Text.trim_exchange hy.ne_nil hy.not_isBlank htrimmed, gap, gap', hgap, hgap',
    fun _ => hne hoperand, by simp⟩

/-- A label stands in the line of its statement, and other operands can be written there. -/
theorem LineSpelled.exists_operand
    (h : LineSpelled cs labels (some (frame.fill (.label name)))) :
    IsIdentifier name.toList ∧ ∃ front back, cs = front ++ (name.toList ++ back) ∧
      ∀ y (x : Operand), IsToken y → x.Spelled y →
        LineSpelled (front ++ (y ++ back)) labels (some (frame.fill x)) := by
  -- the labels in front are taken along, one by one
  generalize hstatement : some (frame.fill (.label name)) = statement at h
  induction h with
  | empty => cases hstatement
  | statement hparted hs =>
    cases hstatement
    obtain ⟨hid, front, back, rfl, hnew⟩ := Statement.exists_operand hs
    obtain ⟨start, stop, rfl, hexchange⟩ := hparted.exists_exchange hid.isToken
    exact ⟨hid, start, stop, rfl, fun y x hy hx => .statement (hexchange y hy) (hnew y x hy hx)⟩
  | @label label gap rest labels statement hname hgap _ ih =>
    obtain ⟨hid, front, back, rfl, hnew⟩ := ih hstatement
    refine ⟨hid, label ++ ':' :: (gap ++ front), back, by simp, fun y x hy hx => ?_⟩
    have hlabel := LineSpelled.label hname hgap (hnew y x hy hx)
    simpa using hlabel

/-- A label stands in the source of its line, and other operands can be written there. -/
theorem SourceLine.exists_operand {line : List Char}
    (h : SourceLine.Spelled ⟨labels, some (frame.fill (.label name))⟩ line) :
    IsIdentifier name.toList ∧ ∃ front back, line = front ++ (name.toList ++ back) ∧
      ∀ y (x : Operand), IsToken y → x.Spelled y →
        SourceLine.Spelled ⟨labels, some (frame.fill x)⟩ (front ++ (y ++ back)) := by
  obtain ⟨hid, front, back, htrim, hnew⟩ := LineSpelled.exists_operand h
  obtain ⟨comment, hline⟩ := exists_append_stripComment line
  obtain ⟨gap, gap', hgap, hgap', hstripped⟩ := Text.exists_gaps (stripComment line)
  have htrimmed : Text.trim (front ++ (name.toList ++ back)) = front ++ (name.toList ++ back) := by
    rw [← htrim, Text.trim_trim]
  -- around the operand are the rest of the statement, white space and the comment
  rw [htrim] at hstripped
  have hwhole : line = gap ++ front ++ (name.toList ++ (back ++ gap' ++ comment)) := by
    rw [hline, hstripped]
    simp
  refine ⟨hid, gap ++ front, back ++ gap' ++ comment, hwhole, fun y x hy hx => ?_⟩
  have hcomment : stripComment (gap ++ front ++ (y ++ (back ++ gap' ++ comment))) =
      gap ++ front ++ (y ++ (back ++ gap')) := by
    refine stripComment_exchange hid.isToken hy ?_
    rw [← hwhole, hstripped]
    simp
  have hsource : gap ++ front ++ (y ++ (back ++ gap')) =
      gap ++ (front ++ (y ++ back) ++ gap') := by simp
  rw [SourceLine.Spelled, hcomment, hsource, Text.trim_append hgap hgap',
    Text.trim_exchange hy.ne_nil hy.not_isBlank htrimmed]
  exact hnew y x hy hx

/-! ### Operands of programs -/

/-- A program with an operand left open. -/
structure Site where
  /-- The lines before the operand's. -/
  before : List SourceLine
  /-- The labels in front of the operand's statement. -/
  labels : List String
  /-- The operand's statement. -/
  frame : Frame
  /-- The lines behind the operand's. -/
  after : List SourceLine

/-- The program with its operand. -/
def Site.program (site : Site) (x : Operand) : List SourceLine :=
  site.before ++ ⟨site.labels, some (site.frame.fill x)⟩ :: site.after

/-- A line with another token in it ends as it did, or in the token. -/
theorem getLast?_exchange (hy : IsToken y) (h : (front ++ (y ++ back)).getLast? = some '\r') :
    (front ++ (x ++ back)).getLast? = some '\r' := by
  by_cases hback : back = []
  · rw [hback, List.append_nil, List.getLast?_append_of_ne_nil _ hy.ne_nil] at h
    exact absurd (List.mem_of_getLast? h) (hy.not_mem_of_reserved (by decide))
  · rw [← List.append_assoc, List.getLast?_append_of_ne_nil _ hback] at h ⊢
    exact h

/-- **A label stands in the text of its program, and other operands can be written there.** -/
theorem exists_occurrence {site : Site} {source : List Char}
    (h : List.Forall₂ SourceLine.Spelled (site.program (.label name)) (Text.lines source)) :
    ∃ front back, source = front ++ (name.toList ++ back) ∧
      ∀ y (x : Operand), IsToken y → x.Spelled y →
        List.Forall₂ SourceLine.Spelled (site.program x) (Text.lines (front ++ (y ++ back))) := by
  obtain ⟨before, line, after, hlines, hbefore, hline, hafter⟩ := exists_forall₂_append_cons h
  obtain ⟨hnewline, start, stop, rfl, hexchange⟩ := Text.exists_lines_exchange hlines
  obtain ⟨-, front, back, rfl, hnew⟩ := SourceLine.exists_operand hline
  refine ⟨start ++ front, back ++ stop, by simp, fun y x hy hx => ?_⟩
  have hsource : start ++ front ++ (y ++ (back ++ stop)) =
      start ++ (front ++ (y ++ back) ++ stop) := by simp
  have hnewline' : '\n' ∉ front ++ (y ++ back) := by
    simp only [List.mem_append, not_or] at hnewline ⊢
    exact ⟨hnewline.1, hy.not_mem_of_reserved (by decide), hnewline.2.2⟩
  rw [hsource, hexchange _ (by simp [hy.ne_nil]) hnewline' (getLast?_exchange hy)]
  exact List.rel_append hbefore (.cons (hnew y x hy hx) hafter)

end Assembly

end TapeMachine
