import TapeMachine.Proofs.Diagnostics
import TapeMachine.Proofs.Snippets

/-!
# Blank lines and comments

What a source says does not depend on how it is set out.

* A line without statement or label (`Assembly.IsIdle`) can be put in anywhere.  Only the numbers of
  the lines below it change, so assembling takes the same course with other numbers
  (`Assembly.Draft.lines_renumber`, `Assembly.Draft.finish_renumber`);
* a comment can be put behind a line that is not in the middle of a literal, since the line is read
  as it was (`Assembly.Line.parse_append_comment`).

Sources are taken apart at their newlines (`Text.rows`).  This leaves carriage returns and an empty
rest in place, which `Text.lines` takes off, but the assembler does not mind
(`Assembly.assemble_eq_assembleLines_rows`).  `Assembly.spacing_does_not_matter` is the result.
-/

namespace TapeMachine

/-! ### Rows -/

namespace Text

variable {cs row : List Char}

/-- What stands between the newlines of a text, the rest behind the last one included. -/
def rows (cs : List Char) : List (List Char) := cs.splitOn '\n'

/-- The text with newlines between the given rows. -/
def ofRows (rows : List (List Char)) : List Char := ['\n'].intercalate rows

theorem ofRows_rows (cs : List Char) : ofRows (rows cs) = cs := List.intercalate_splitOn '\n'

theorem rows_ne_nil (cs : List Char) : rows cs ≠ [] := List.splitOn_ne_nil '\n' cs

theorem newline_not_mem_of_mem_rows (h : row ∈ rows cs) : '\n' ∉ row := by
  induction cs generalizing row with
  | nil =>
    cases List.mem_singleton.1 h
    exact List.not_mem_nil
  | cons c cs ih =>
    obtain ⟨first, rest, hrows⟩ := List.exists_cons_of_ne_nil (rows_ne_nil cs)
    rw [rows, List.splitOn_cons_eq_if_modifyHead, ← rows, hrows] at h
    rw [hrows] at ih
    split at h
    · rcases List.mem_cons.1 h with rfl | h
      · exact List.not_mem_nil
      · exact ih h
    · rename_i hc
      rcases List.mem_cons.1 h with rfl | h
      · intro hmem
        rcases List.mem_cons.1 hmem with rfl | hmem
        · exact hc (beq_self_eq_true _)
        · exact ih List.mem_cons_self hmem
      · exact ih (List.mem_cons_of_mem _ h)

end Text

namespace Assembly

variable {line gap new row row' cs : List Char} {s : Scan} {f : Nat → Nat} {n n' : Nat}

/-! ### Comments behind a line -/

/-- What stands behind a comment belongs to it. -/
theorem dropComment_append_of_ne (h : dropComment s cs ≠ cs) (ds : List Char) :
    dropComment s (cs ++ ds) = dropComment s cs := by
  induction cs generalizing s with
  | nil => exact absurd rfl h
  | cons c cs ih =>
    rw [dropComment] at h
    rw [List.cons_append, dropComment, dropComment]
    split
    · rfl
    · rename_i hc
      rw [if_neg hc] at h
      rw [ih fun heq => h (congrArg (c :: ·) heq)]

/-- A comment is dropped where the scan of the line is outside of literals. -/
theorem stripComment_append_comment (h : Scan.outside.after (stripComment line) = .outside)
    (text : List Char) : stripComment (line ++ ';' :: text) = stripComment line := by
  by_cases hline : stripComment line = line
  · rw [hline] at h
    rw [stripComment, dropComment_append hline, h, hline, dropComment, if_pos ⟨rfl, rfl⟩,
      List.append_nil]
  · exact dropComment_append_of_ne hline _

/-- White space is no comment. -/
theorem dropComment_of_blank (hgap : ∀ c ∈ gap, Text.isBlank c = true) (s : Scan) :
    dropComment s gap = gap := by
  refine dropComment_of_not_mem (fun hmem => ?_) s
  cases hgap _ hmem

theorem trim_stripComment_append (hgap : ∀ c ∈ gap, Text.isBlank c = true) (line : List Char) :
    Text.trim (stripComment (line ++ gap)) = Text.trim (stripComment line) := by
  by_cases hline : stripComment line = line
  · rw [stripComment, dropComment_append hline, dropComment_of_blank hgap, hline]
    exact Text.trim_append (List.forall_mem_nil _) hgap line
  · exact congrArg Text.trim (dropComment_append_of_ne hline gap)

/-- White space at the end of a line does not matter, not even inside a comment or a literal that
is left open. -/
theorem Line.parse_append_blank (hgap : ∀ c ∈ gap, Text.isBlank c = true) (line : List Char) :
    Line.parse (line ++ gap) = Line.parse line := by
  unfold Line.parse
  rw [trim_stripComment_append hgap]

/-- A comment behind a line does not matter. -/
theorem Line.parse_append_comment (h : Scan.outside.after (stripComment line) = .outside)
    (text : List Char) : Line.parse (line ++ ';' :: text) = Line.parse line := by
  unfold Line.parse
  rw [stripComment_append_comment h]

/-- The return that ends a line does not matter. -/
theorem Line.parse_dropReturn (row : List Char) :
    Line.parse (Text.dropReturn row.reverse).reverse = Line.parse row := by
  by_cases hreturn : row.getLast? = some '\r'
  · obtain ⟨front, rfl⟩ := List.getLast?_eq_some_iff.1 hreturn
    rw [Text.dropReturn_concat_reverse, List.reverse_reverse,
      Line.parse_append_blank (List.forall_mem_singleton.2 rfl)]
  · rw [Text.dropReturn_reverse hreturn, List.reverse_reverse]

/-! ### Lines that say nothing -/

/-- A line that is white space, or white space and a comment. -/
inductive IsIdle : List Char → Prop
  | blank {gap : List Char} (hgap : ∀ c ∈ gap, Text.isBlank c = true) : IsIdle gap
  | comment {gap : List Char} (hgap : ∀ c ∈ gap, Text.isBlank c = true) (text : List Char) :
      IsIdle (gap ++ ';' :: text)

theorem Line.parse_nil : Line.parse [] = ⟨[], .ok none⟩ := by
  have hsplit : splitLabels [] = ([], []) := splitLabels_of_not_mem List.not_mem_nil
  unfold Line.parse
  rw [show Text.trim (stripComment []) = [] from rfl, hsplit]
  rfl

theorem parse_of_blank (hgap : ∀ c ∈ gap, Text.isBlank c = true) :
    Line.parse gap = ⟨[], .ok none⟩ :=
  (Line.parse_append_blank hgap []).trans Line.parse_nil

theorem IsIdle.parse_eq (h : IsIdle new) : Line.parse new = ⟨[], .ok none⟩ := by
  cases h with
  | blank hgap => exact parse_of_blank hgap
  | comment hgap text =>
    rw [Line.parse_append_comment ?_ text, parse_of_blank hgap]
    rw [stripComment, dropComment_of_blank hgap]
    refine Scan.after_of_quote_free fun c hc hquote => ?_
    have hblank := hgap c hc
    rcases hquote with rfl | rfl <;> cases hblank

/-- A line that says nothing is taken in without a trace. -/
theorem Draft.line_of_isIdle (h : IsIdle new) (d : Draft) (n : Nat) :
    d.line n (Line.parse new) = .ok d := by
  rw [h.parse_eq]
  rfl

/-! ### Other line numbers -/

/-- The error with another line number, if it has one. -/
def Error.renumber (f : Nat → Nat) : Error → Error
  | badLine n p => badLine (f n) p
  | e => e

/-- The draft of the same lines with other numbers. -/
def Draft.renumber (f : Nat → Nat) (d : Draft) : Draft :=
  { d with uses := d.uses.map fun use => (use.1, f use.2) }

theorem Draft.renumber_empty (f : Nat → Nat) : Draft.renumber f {} = {} := by
  simp [Draft.renumber]

theorem Draft.line_renumber (f : Nat → Nat) (d : Draft) (n : Nat) (l : Line) :
    (d.renumber f).line (f n) l = (d.line n l).map (Draft.renumber f) := by
  unfold Draft.line
  rw [show (d.renumber f).builder = d.builder from rfl]
  cases bindLabels d.builder l.labels with
  | error p => rfl
  | ok b =>
    cases l.body with
    | error p => rfl
    | ok body =>
      cases body with
      | none => rfl
      | some s =>
        show Except.ok _ = Except.ok _
        simp only [Draft.renumber, Except.ok.injEq, Draft.mk.injEq, true_and]
        rw [← Array.toList_inj]
        simp

/-- Numbers do not decide what happens to lines: with other numbers, the outcome is the same up to
its numbers. -/
theorem Draft.lines_renumber {ls : List (List Char)} (hf : ∀ i < ls.length, f (n + i) = n' + i)
    (d : Draft) :
    (d.renumber f).lines n' ls =
      ((d.lines n ls).map (Draft.renumber f)).mapError (Error.renumber f) := by
  induction ls generalizing d n n' with
  | nil => rfl
  | cons cs ls ih =>
    obtain rfl : f n = n' := hf 0 (Nat.zero_lt_succ _)
    have hrest : ∀ i < ls.length, f (n + 1 + i) = f n + 1 + i := by
      intro i hi
      rw [Nat.add_right_comm n, Nat.add_right_comm (f n), Nat.add_assoc n, Nat.add_assoc (f n)]
      exact hf (i + 1) (Nat.succ_lt_succ hi)
    rw [Draft.lines, Draft.lines, Draft.line_renumber]
    cases d.line n (Line.parse cs) with
    | error p => rfl
    | ok d' => exact ih hrest d'

/-- Once the lines are taken in, errors without a line number are all that is left. -/
theorem Builder.renumber_of_finish_eq_error {b : Builder} {e : Error} (h : b.finish = .error e)
    (f : Nat → Nat) : e.renumber f = e := by
  unfold Builder.finish at h
  split at h
  · cases h
    rfl
  · obtain ⟨r, -, image, hresolve⟩ := Builder.foldlM_resolve_eq_error h
    rcases Builder.resolve_eq_error hresolve with ⟨-, rfl⟩ | ⟨a, -, -, rfl⟩ <;> rfl

theorem Draft.undefined?_renumber (f : Nat → Nat) (d : Draft) :
    (d.renumber f).undefined? = d.undefined?.map fun use => (use.1, f use.2) := by
  unfold Draft.undefined? Draft.renumber
  rw [Array.find?_map]
  rfl

theorem Draft.finish_renumber (f : Nat → Nat) (d : Draft) :
    (d.renumber f).finish = d.finish.mapError (Error.renumber f) := by
  unfold Draft.finish
  rw [Draft.undefined?_renumber]
  cases d.undefined? with
  | some use => rfl
  | none =>
    show d.builder.finish = _
    cases hfinish : d.builder.finish with
    | ok image => rfl
    | error e => exact congrArg _ (Builder.renumber_of_finish_eq_error hfinish f).symm

/-! ### Putting a line in -/

/-- The number of line `n` when another line has been put in below the first `i` ones. -/
def shifted (i n : Nat) : Nat := if i < n then n + 1 else n

/-- The lines above the one that is put in keep their numbers. -/
theorem Draft.lines_shifted_above (before : List (List Char)) :
    Draft.lines {} 1 before =
      ((Draft.lines {} 1 before).map (Draft.renumber (shifted before.length))).mapError
        (Error.renumber (shifted before.length)) := by
  have hkeep : ∀ i < before.length, shifted before.length (1 + i) = 1 + i :=
    fun i hi => if_neg (by omega)
  have hlines := Draft.lines_renumber hkeep {}
  rwa [Draft.renumber_empty] at hlines

/-- The lines below it move down by one. -/
theorem Draft.lines_shifted_below (i : Nat) (after : List (List Char)) (d : Draft) :
    (d.renumber (shifted i)).lines (1 + i + 1) after =
      ((d.lines (1 + i) after).map (Draft.renumber (shifted i))).mapError
        (Error.renumber (shifted i)) := by
  have hmove : ∀ j < after.length, shifted i (1 + i + j) = 1 + i + 1 + j := by
    intro j _
    rw [shifted, if_pos (by omega)]
    omega
  exact Draft.lines_renumber hmove d

theorem assembleLines_insert (hnew : IsIdle new) (before after : List (List Char)) :
    assembleLines (before ++ new :: after) =
      (assembleLines (before ++ after)).mapError (Error.renumber (shifted before.length)) := by
  have habove := Draft.lines_shifted_above before
  unfold assembleLines
  rw [Draft.lines_append, Draft.lines_append]
  cases hbefore : Draft.lines {} 1 before with
  | error e =>
    rw [hbefore] at habove
    exact congrArg _ (Except.error.inj habove)
  | ok d =>
    rw [hbefore] at habove
    have hd : d = d.renumber (shifted before.length) := Except.ok.inj habove
    show d.lines (1 + before.length) (new :: after) >>= Draft.finish =
      (d.lines (1 + before.length) after >>= Draft.finish).mapError _
    rw [Draft.lines, Draft.line_of_isIdle hnew]
    show d.lines (1 + before.length + 1) after >>= Draft.finish = _
    -- the numbers that the draft already holds are numbers of lines above, so it stays as it is
    conv_lhs => rw [hd]
    rw [Draft.lines_shifted_below]
    cases d.lines (1 + before.length) after with
    | error e => rfl
    | ok d' => exact Draft.finish_renumber _ d'

/-- A line can be exchanged for one that reads the same. -/
theorem assembleLines_exchange (h : Line.parse row' = Line.parse row)
    (before after : List (List Char)) :
    assembleLines (before ++ row' :: after) = assembleLines (before ++ row :: after) := by
  simp only [assembleLines, Draft.lines_append, Draft.lines, h]

/-! ### Sources and their rows -/

theorem Draft.lines_ofRows {rows : List (List Char)} (hne : rows ≠ [])
    (hrows : ∀ row ∈ rows, '\n' ∉ row) (d : Draft) (n : Nat) :
    d.lines n (Text.lines (Text.ofRows rows)) = d.lines n rows := by
  induction rows generalizing d n with
  | nil => exact absurd rfl hne
  | cons row rows ih =>
    obtain ⟨hrow, hrest⟩ := List.forall_mem_cons.1 hrows
    cases rows with
    | nil =>
      rw [Text.ofRows, List.intercalate_singleton]
      by_cases hempty : row = []
      · -- what stands behind the last newline is no line if it is empty
        subst hempty
        rw [Draft.lines, Draft.line_of_isIdle (.blank (List.forall_mem_nil _))]
        rfl
      · rw [Text.lines_of_not_mem hrow hempty]
    | cons next rows =>
      rw [Text.ofRows, List.intercalate_cons_cons, List.append_assoc, List.singleton_append,
        Text.lines_append hrow, Draft.lines, Draft.lines, Line.parse_dropReturn]
      cases d.line n (Line.parse row) with
      | error p => rfl
      | ok d' => exact ih (List.cons_ne_nil _ _) hrest d' (n + 1)

theorem assemble_ofRows {rows : List (List Char)} (hne : rows ≠ [])
    (hrows : ∀ row ∈ rows, '\n' ∉ row) :
    assemble (String.ofList (Text.ofRows rows)) = assembleLines rows := by
  rw [assemble, String.toList_ofList, assembleLines, Draft.lines_ofRows hne hrows, assembleLines]

/-- The assembler may as well work on the rows of a source. -/
theorem assemble_eq_assembleLines_rows (source : String) :
    assemble source = assembleLines (Text.rows source.toList) := by
  rw [← assemble_ofRows (Text.rows_ne_nil _) fun _ => Text.newline_not_mem_of_mem_rows,
    Text.ofRows_rows, String.ofList_toList]

/-- **Blank lines and comments do not matter.**  A line of white space, with or without a comment,
can be put in anywhere: the image stays the same, and so does an error, except that its line number
goes up by one if the line is put in above.  It is the same whether a row is put in, with a newline,
or whether the lines are what differs by it, as with a last line that no newline ends.

A comment can be put behind a line, and before the white space that ends it, if the line is not in
the middle of a literal there: image or error stay the same. -/
theorem spacing_does_not_matter (source : String) :
    (∀ source' before new after, Text.lines source.toList = before ++ after →
      Text.lines source'.toList = before ++ new :: after → IsIdle new →
      assemble source' =
        (assemble source).mapError (Error.renumber (shifted before.length))) ∧
    (∀ before new after, Text.rows source.toList = before ++ after → '\n' ∉ new → IsIdle new →
      assemble (String.ofList (Text.ofRows (before ++ new :: after))) =
        (assemble source).mapError (Error.renumber (shifted before.length))) ∧
    ∀ before line gap text after, Text.rows source.toList = before ++ (line ++ gap) :: after →
      (∀ c ∈ gap, Text.isBlank c = true) → '\n' ∉ text →
      Scan.outside.after (stripComment line) = .outside →
      assemble (String.ofList (Text.ofRows (before ++ (line ++ ';' :: text ++ gap) :: after))) =
        assemble source := by
  have hmem : ∀ row ∈ Text.rows source.toList, '\n' ∉ row :=
    fun _ => Text.newline_not_mem_of_mem_rows
  refine ⟨?_, ?_, ?_⟩
  · intro source' before new after hsource hsource' hnew
    rw [assemble, assemble, hsource, hsource', assembleLines_insert hnew]
  · intro before new after hsource hnewline hnew
    rw [hsource, List.forall_mem_append] at hmem
    have hrows : ∀ row ∈ before ++ new :: after, '\n' ∉ row :=
      List.forall_mem_append.2 ⟨hmem.1, List.forall_mem_cons.2 ⟨hnewline, hmem.2⟩⟩
    rw [assemble_eq_assembleLines_rows source, hsource, assemble_ofRows (by simp) hrows,
      assembleLines_insert hnew]
  · intro before line gap text after hsource hgap hnewline hscan
    rw [hsource, List.forall_mem_append, List.forall_mem_cons] at hmem
    obtain ⟨hbefore, hrow, hafter⟩ := hmem
    have hrow' : '\n' ∉ line ++ ';' :: text ++ gap := by
      simp only [List.mem_append, not_or] at hrow
      simp [hrow, hnewline]
    have hrows : ∀ row ∈ before ++ (line ++ ';' :: text ++ gap) :: after, '\n' ∉ row :=
      List.forall_mem_append.2 ⟨hbefore, List.forall_mem_cons.2 ⟨hrow', hafter⟩⟩
    have hparse : Line.parse (line ++ ';' :: text ++ gap) = Line.parse (line ++ gap) := by
      rw [Line.parse_append_blank hgap, Line.parse_append_comment hscan,
        Line.parse_append_blank hgap]
    rw [assemble_eq_assembleLines_rows source, hsource, assemble_ofRows (by simp) hrows,
      assembleLines_exchange hparse]

/-- A label that is nowhere is blamed on the line that uses it, wherever a remark moves that line.
A remark at the end moves nothing, nor does one behind a quoted semicolon. -/
theorem spacing_does_not_matter_undefined :
    assemble "PUSH ';'\r\nPUSH x\n" = .error (.badLine 2 (.undefinedLabel "x")) ∧
      assemble "PUSH ';'\r\n\t; 'no\nPUSH x\n" = .error (.badLine 3 (.undefinedLabel "x")) ∧
      assemble "PUSH ';'\r\nPUSH x\n\t; 'no" = .error (.badLine 2 (.undefinedLabel "x")) ∧
      assemble "PUSH ';';\x22\r\nPUSH x\n" = .error (.badLine 2 (.undefinedLabel "x")) := by
  have h : assemble "PUSH ';'\r\nPUSH x\n" = .error (.badLine 2 (.undefinedLabel "x")) := by
    decide +kernel
  have hlines : Text.lines "PUSH ';'\r\nPUSH x\n".toList =
      ["PUSH ';'".toList, "PUSH x".toList] ++ [] := by decide +kernel
  have hrows : Text.rows "PUSH ';'\r\nPUSH x\n".toList =
      ["PUSH ';'\r".toList] ++ ["PUSH x".toList, []] := by decide +kernel
  have hremark : IsIdle (['\t'] ++ ';' :: " 'no".toList) :=
    .comment (List.forall_mem_singleton.2 rfl) _
  obtain ⟨hend, hinsert, hcomment⟩ := spacing_does_not_matter "PUSH ';'\r\nPUSH x\n"
  rw [h] at hend hinsert hcomment
  refine ⟨h, ?_, hend _ _ _ _ hlines (by decide +kernel) hremark, ?_⟩
  · rw [show "PUSH ';'\r\n\t; 'no\nPUSH x\n" = String.ofList (Text.ofRows
      (["PUSH ';'\r".toList] ++ (['\t'] ++ ';' :: " 'no".toList) :: ["PUSH x".toList, []])) by
      decide +kernel]
    exact hinsert _ _ _ hrows (by decide) hremark
  · rw [show "PUSH ';';\x22\r\nPUSH x\n" = String.ofList (Text.ofRows
      ([] ++ ("PUSH ';'".toList ++ ';' :: "\x22".toList ++ ['\r']) :: ["PUSH x".toList, []])) by
      decide +kernel]
    exact hcomment [] _ _ _ _ hrows (List.forall_mem_singleton.2 rfl) (by decide) (by decide)

end Assembly

end TapeMachine
