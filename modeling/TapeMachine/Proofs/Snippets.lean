import TapeMachine.Proofs.Programs

/-!
# Sources of one statement

A line that is a name, a blank and more text, all of it outside comments, is read as that name with
the trimmed text as its operand (`Assembly.SourceLine.spelled_iff_of_name`): there are no labels in
front, whatever colons the text holds.  A source of one such line assembles to what the statement
emits, if the statement uses no labels (`Assembly.assemble_line_iff`).

Whether a text holds a comment is told by a scan from its front.  A text without one can be put in
front of another, and the scan goes on behind it in the state that it left
(`Assembly.dropComment_append`).
-/

namespace TapeMachine

namespace Text

variable {cs : List Char}

/-- A text is white space, the trimmed text and white space. -/
theorem exists_gaps (cs : List Char) :
    ∃ gap gap', (∀ c ∈ gap, isBlank c = true) ∧ (∀ c ∈ gap', isBlank c = true) ∧
      cs = gap ++ (trim cs ++ gap') := by
  obtain ⟨gap', hgap', hcs⟩ := exists_append_trim cs
  exact ⟨cs.takeWhile isBlank, gap', fun c hc => List.mem_takeWhile_imp hc, hgap', hcs⟩

/-- A trimmed text ends in something visible. -/
theorem getLast?_visible (h : trim cs = cs) : ∀ c ∈ cs.getLast?, isBlank c = false := by
  intro c hc
  have hhead : c ∈ ((trimStart cs).reverse.dropWhile isBlank).head? := by
    rw [← h, trim, trimEnd, List.getLast?_reverse] at hc
    exact hc
  have hnot := List.head?_dropWhile_not isBlank (trimStart cs).reverse
  rw [hhead] at hnot
  simpa using hnot

end Text

namespace Assembly

variable {s : Scan} {cs ds name operand x : List Char}

/-! ### Comments -/

/-- The characters that literals stand between. -/
def IsQuote (q : Char) : Prop := q = '\x22' ∨ q = '\x27'

theorem IsQuote.ne {q c : Char} (hq : IsQuote q) (hdouble : '\x22' ≠ c) (hsingle : '\x27' ≠ c) :
    q ≠ c := by
  rcases hq with rfl | rfl
  · exact hdouble
  · exact hsingle

theorem IsQuote.next_outside {q : Char} (hq : IsQuote q) : Scan.outside.next q = .inside q :=
  if_pos hq

theorem IsQuote.next_inside {q : Char} (hq : IsQuote q) : (Scan.inside q).next q = .outside := by
  rw [Scan.next, if_neg (hq.ne (by decide) (by decide)), if_pos rfl]

theorem Scan.after_append (s : Scan) (cs ds : List Char) :
    s.after (cs ++ ds) = (s.after cs).after ds := List.foldl_append

/-- The scan goes on behind a text without comment. -/
theorem dropComment_append (h : dropComment s cs = cs) (ds : List Char) :
    dropComment s (cs ++ ds) = cs ++ dropComment (s.after cs) ds := by
  induction cs generalizing s with
  | nil => rfl
  | cons c cs ih =>
    rw [dropComment] at h
    split at h
    · cases h
    · rename_i hc
      rw [List.cons_append, dropComment, if_neg hc, ih (List.cons.inj h).2]
      rfl

/-- What is dropped from a text starts with a semicolon. -/
theorem eq_append_of_dropComment_ne {s : Scan} (h : dropComment s cs ≠ cs) :
    ∃ ds, cs = dropComment s cs ++ ';' :: ds := by
  induction cs generalizing s with
  | nil => exact absurd rfl h
  | cons c cs ih =>
    rw [dropComment] at h ⊢
    split
    · rename_i hc
      exact ⟨cs, by rw [hc.2]; rfl⟩
    · rename_i hc
      rw [if_neg hc] at h
      obtain ⟨ds, hds⟩ := ih fun heq => h (congrArg (c :: ·) heq)
      exact ⟨ds, congrArg (c :: ·) hds⟩

/-- Without a semicolon there is no comment. -/
theorem dropComment_of_not_mem (h : ';' ∉ cs) (s : Scan) : dropComment s cs = cs := by
  by_contra hne
  obtain ⟨ds, hds⟩ := eq_append_of_dropComment_ne hne
  refine h ?_
  rw [hds]
  exact List.mem_append_right _ List.mem_cons_self

/-- No literal starts in a text without quotes. -/
theorem Scan.after_of_quote_free (h : ∀ c ∈ cs, ¬ IsQuote c) :
    Scan.outside.after cs = .outside := by
  induction cs with
  | nil => rfl
  | cons c cs ih =>
    obtain ⟨hc, hcs⟩ := List.forall_mem_cons.1 h
    have hnext : Scan.outside.next c = .outside := if_neg hc
    rw [Scan.after, List.foldl_cons, hnext]
    exact ih hcs

/-- A comment starts behind the name of a line, if there is one. -/
theorem stripComment_name (hname : IsWord name) (x : List Char) :
    stripComment (name ++ ' ' :: x) = name ++ ' ' :: stripComment x := by
  have hplain : ∀ c ∈ name ++ [' '], isPlain c = true ∨ c = ' ' := by
    intro c hc
    rcases List.mem_append.1 hc with hc | hc
    · exact .inl (hname.plain c hc)
    · exact .inr (List.mem_singleton.1 hc)
  have hquote : ∀ c ∈ name ++ [' '], ¬ IsQuote c := by
    intro c hc heq
    have hc := hplain c hc
    rcases heq with rfl | rfl <;> revert hc <;> decide
  have hsplit : ∀ rest, name ++ ' ' :: rest = name ++ [' '] ++ rest := by simp
  rw [hsplit x, hsplit (stripComment x), stripComment, stripComment,
    dropComment_append (stripComment_of_plain hplain), Scan.after_of_quote_free hquote]

/-! ### A statement on a line -/

/-- White space behind the operand does not matter. -/
theorem Parted.trim (h : Parted cs name operand) (hne : name ≠ []) :
    Parted (Text.trim cs) name operand := by
  obtain ⟨hvisible, htrimmed, gap, gap', hgap, hgap', hgap_ne, rfl⟩ := h
  have hfirst : ∀ rest, ∀ c ∈ (name ++ rest).head?, Text.isBlank c = false := by
    intro rest c hc
    rw [List.head?_append_of_ne_nil _ hne] at hc
    exact hvisible c (List.mem_of_mem_head? hc)
  by_cases hoperand : operand = []
  · have hblank : ∀ c ∈ gap ++ gap', Text.isBlank c = true := by
      intro c hc
      rcases List.mem_append.1 hc with hc | hc
      · exact hgap c hc
      · exact hgap' c hc
    have htrim : Text.trim name = name := by
      refine Text.trim_of_ends (fun c hc => ?_) fun c hc => hvisible c (List.mem_of_getLast? hc)
      exact hvisible c (List.mem_of_mem_head? hc)
    have hcs := Text.trim_append (List.forall_mem_nil _) hblank name
    rw [List.nil_append, htrim] at hcs
    rw [hoperand, List.nil_append, hcs]
    exact ⟨hvisible, rfl, [], [], by simp⟩
  · have htrim : Text.trim (name ++ (gap ++ operand)) = name ++ (gap ++ operand) := by
      refine Text.trim_of_ends (hfirst _) fun c hc => ?_
      rw [← List.append_assoc, List.getLast?_append_of_ne_nil _ hoperand] at hc
      exact Text.getLast?_visible htrimmed c hc
    have hcs := Text.trim_append (List.forall_mem_nil _) hgap' (name ++ (gap ++ operand))
    rw [List.nil_append, htrim] at hcs
    rw [← List.append_assoc gap, ← List.append_assoc name, hcs]
    exact ⟨hvisible, htrimmed, gap, [], hgap, by simp, hgap_ne, by simp⟩

/-- A text whose name holds no colon has no labels. -/
theorem lineSpelled_iff_of_parted {labels : List String} {statement : Option Statement}
    (hparted : Parted cs name operand) (hne : name ≠ []) (hcolon : ':' ∉ name) :
    LineSpelled cs labels statement ↔
      labels = [] ∧ ∃ s : Statement, statement = some s ∧ s.Spelled name operand := by
  obtain ⟨hname, hoperand⟩ := parted_iff.1 hparted
  constructor
  · intro h
    cases h with
    | empty => exact absurd hname hne
    | statement hparted' hs =>
      obtain ⟨rfl, rfl⟩ := parted_iff.1 hparted'
      rw [← hname, ← hoperand] at hs
      exact ⟨rfl, _, rfl, hs⟩
    | label hid =>
      refine absurd ?_ hcolon
      rw [hname, List.takeWhile_append_of_pos fun c hc => by
        rw [(hid.visible hc).1, Bool.not_false], List.takeWhile_cons_of_pos (by decide)]
      exact List.mem_append_right _ List.mem_cons_self
  · rintro ⟨rfl, s, rfl, hs⟩
    exact .statement hparted hs

/-- A name and the text behind it are read as a statement. -/
theorem SourceLine.spelled_iff_of_name {l : SourceLine} (hname : IsWord name)
    (hcomment : stripComment cs = name ++ ' ' :: x) :
    l.Spelled cs ↔ ∃ s : Statement, l = ⟨[], some s⟩ ∧ s.Spelled name (Text.trim x) := by
  have hcolon : ':' ∉ name := fun hmem => by cases hname.plain ':' hmem
  have hparted : Parted (name ++ ' ' :: x) name (Text.trim x) := by
    refine parted_iff.2 ⟨?_, ?_⟩
    · rw [List.takeWhile_append_of_pos hname.visible, List.takeWhile_cons_of_neg (by decide),
        List.append_nil]
    · rw [List.dropWhile_append_of_pos hname.visible, List.dropWhile_cons_of_neg (by decide)]
      rfl
  rw [SourceLine.Spelled, hcomment,
    lineSpelled_iff_of_parted (hparted.trim hname.ne_nil) hname.ne_nil hcolon]
  obtain ⟨labels, statement⟩ := l
  simp [and_assoc]

/-! ### A line as a source -/

theorem Builder.atEnd_empty : Builder.empty.AtEnd := rfl

/-- The image of an instruction and its immediate. -/
theorem image_emit_immediate (op : Opcode) (v : Word) :
    ((Statement.immediate op (.value v)).emit .empty).image = (op.byte :: v.encode).toArray := by
  have hop : (Builder.empty.op op).AtEnd := Builder.atEnd_empty.bytes _
  rw [← Array.toList_inj]
  exact (hop.image_bytes _).trans
    (congrArg (· ++ v.encode) (Builder.atEnd_empty.image_bytes [op.byte]))

/-- A statement that uses no labels is finished as soon as it is emitted. -/
theorem finish_ofProgram_of_labels_eq_nil {s : Statement} (h : s.labels = []) :
    (Draft.ofProgram [⟨[], some s⟩]).finish = .ok (s.emit .empty).image := by
  have hnodup : (labelsOf [⟨[], some s⟩]).Nodup := List.nodup_nil
  have hbuilder : (Draft.ofProgram [⟨[], some s⟩]).builder = s.emit .empty := by
    rw [s.emit_eq, Draft.ofProgram, callsOf, List.flatMap_singleton]
    rfl
  have huses : usesOf [⟨[], some s⟩] = [] := by
    simp [usesOf, usesFrom, SourceLine.uses, h]
  have hreferences : (Draft.ofProgram [⟨[], some s⟩]).builder.references.toList = [] := by
    have hmap := map_label_referencesOf_callsOf [⟨[], some s⟩] 1
    rw [← usesOf, huses, List.map_nil, List.map_eq_nil_iff] at hmap
    rw [Draft.ofProgram, (Builder.records_ofCalls _).references_eq, hmap]
  have hdefined : (Draft.ofProgram [⟨[], some s⟩]).undefined? = none := by
    rw [Draft.undefined?_ofProgram, huses, List.find?_nil]
  rw [Draft.finish_of_defined hdefined,
    Builder.finish_of_bound (Draft.duplicates_ofProgram hnodup) (by simp [hreferences]),
    hreferences, hbuilder, List.foldl_nil]

/-- A program of one statement has the image that the statement emits, if it uses no labels. -/
theorem finish_ofProgram_singleton_iff {s : Statement} {image : Array UInt8} :
    (Draft.ofProgram [⟨[], some s⟩]).finish = .ok image ↔
      s.labels = [] ∧ (s.emit .empty).image = image := by
  constructor
  · intro h
    have hnodup : (labelsOf [⟨[], some s⟩]).Nodup := List.nodup_nil
    obtain ⟨huses, -⟩ := (Draft.exists_finish_eq_ok_iff hnodup).1 ⟨image, h⟩
    have hlabels : s.labels = [] := by
      rw [List.eq_nil_iff_forall_not_mem]
      intro name hname
      have hmem : (name, 1) ∈ usesOf [⟨[], some s⟩] := by
        simp [usesOf, usesFrom, SourceLine.uses, hname]
      exact absurd (huses _ hmem) List.not_mem_nil
    rw [finish_ofProgram_of_labels_eq_nil hlabels] at h
    exact ⟨hlabels, Except.ok.inj h⟩
  · rintro ⟨hlabels, rfl⟩
    exact finish_ofProgram_of_labels_eq_nil hlabels

/-- A source of one statement assembles to what the statement emits. -/
theorem assemble_line_iff {source : String} {image : Array UInt8} (hname : IsWord name)
    (hline : '\n' ∉ source.toList) (hcomment : stripComment source.toList = name ++ ' ' :: x) :
    assemble source = .ok image ↔
      ∃ s : Statement, s.Spelled name (Text.trim x) ∧ s.labels = [] ∧
        (s.emit .empty).image = image := by
  have hne : source.toList ≠ [] := by
    intro h
    rw [h] at hcomment
    exact List.append_ne_nil_of_right_ne_nil name (List.cons_ne_nil ' ' x) hcomment.symm
  rw [assemble_eq_ok_iff, Text.lines_of_not_mem hline hne]
  constructor
  · rintro ⟨program, hspelled, -, hfinish⟩
    obtain ⟨l, rest, hl, hrest, rfl⟩ := List.forall₂_cons_right_iff.1 hspelled
    cases List.forall₂_nil_right_iff.1 hrest
    obtain ⟨s, rfl, hs⟩ := (SourceLine.spelled_iff_of_name hname hcomment).1 hl
    exact ⟨s, hs, finish_ofProgram_singleton_iff.1 hfinish⟩
  · rintro ⟨s, hs, hfinish⟩
    have hl := (SourceLine.spelled_iff_of_name hname hcomment).2 ⟨s, rfl, hs⟩
    exact ⟨_, .cons hl .nil, List.nodup_nil, finish_ofProgram_singleton_iff.2 hfinish⟩

end Assembly

end TapeMachine
