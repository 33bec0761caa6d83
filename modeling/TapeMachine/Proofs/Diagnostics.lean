import TapeMachine.Proofs.Programs

/-!
# Where errors point

What is wrong with a line can be told from the line and the labels before it.  Only whether a label
is defined takes all lines (`Assembly.IsLocal`).  So there are two kinds of errors.

* An error of the scan is that of the first line that cannot be taken in, whatever lines follow
  (`Assembly.Draft.lines_eq_error_iff`);
* an undefined label is complained of if all lines can be taken in, and the error points at the
  first use of a label that no line has (`Assembly.Draft.finish_ofProgram_eq_error`).

Besides these there is only the label that is out of reach
(`Assembly.assembly_errors_point_at_lines`).
-/

namespace TapeMachine

namespace Assembly

/-! ### What can be told from a line -/

section

variable {α β : Type} {x : Except Problem α} {f : α → Except Problem β}

/-- Whatever is wrong, it is not that a label is undefined. -/
def IsLocal (x : Except Problem α) : Prop := ∀ name, x ≠ .error (.undefinedLabel name)

theorem isLocal_ok (a : α) : IsLocal (.ok a) := by
  rintro name ⟨⟩

theorem IsLocal.bind (hx : IsLocal x) (hf : ∀ a, IsLocal (f a)) : IsLocal (x >>= f) := by
  cases x with
  | error p =>
    intro name h
    cases h
    exact hx name rfl
  | ok a => exact hf a

theorem IsLocal.map (hx : IsLocal x) (g : α → β) : IsLocal (x.map g) := by
  cases x with
  | error p =>
    intro name h
    cases h
    exact hx name rfl
  | ok a => exact isLocal_ok _

theorem isLocal_mapM (hf : ∀ a, IsLocal (f a)) (xs : List α) : IsLocal (xs.mapM f) := by
  induction xs with
  | nil => exact isLocal_ok _
  | cons a xs ih =>
    rw [List.mapM_cons]
    exact (hf a).bind fun b => ih.bind fun ys => isLocal_ok _

theorem isLocal_unescape (cs : List Char) : IsLocal (unescape cs) := by
  fun_induction unescape cs with
  | case1 => exact isLocal_ok _
  | case2 => rintro name ⟨⟩
  | case3 => rintro name ⟨⟩
  | case4 _ _ _ _ ih => exact ih.map _
  | case5 _ _ _ _ ih => exact ih.map _

theorem isLocal_parseCharacter (cs : List Char) : IsLocal (parseCharacter cs) := by
  unfold parseCharacter
  split
  · rintro name ⟨⟩
  · refine (isLocal_unescape _).bind fun inner => ?_
    split
    · exact isLocal_ok _
    · rintro name ⟨⟩

theorem isLocal_parseString (cs : List Char) : IsLocal (parseString cs) := by
  unfold parseString
  split
  · split
    · exact isLocal_unescape _
    · rintro name ⟨⟩
  · rintro name ⟨⟩

theorem isLocal_parseNumeral (cs : List Char) : IsLocal (parseNumeral cs) := by
  unfold parseNumeral
  split
  split
  · rintro name ⟨⟩
  · dsimp only
    split
    · exact isLocal_ok _
    · rintro name ⟨⟩

theorem isLocal_parseValue (cs : List Char) : IsLocal (parseValue cs) := by
  unfold parseValue
  split
  · exact (isLocal_parseCharacter _).bind fun c => isLocal_ok _
  · exact isLocal_parseNumeral _

theorem Operand.isLocal_parse (cs : List Char) : IsLocal (Operand.parse cs) := by
  unfold Operand.parse
  split
  · exact isLocal_ok _
  · exact (isLocal_parseValue cs).map _

theorem isLocal_parseItems (cs : List Char) : IsLocal (parseItems cs) := by
  unfold parseItems
  dsimp only
  split
  · rintro name ⟨⟩
  · exact isLocal_ok _

theorem isLocal_parseByte (cs : List Char) : IsLocal (parseByte cs) := by
  refine (isLocal_parseValue cs).bind fun v => ?_
  split
  · exact isLocal_ok _
  · rintro name ⟨⟩

theorem isLocal_parseInstruction (name operand : List Char) :
    IsLocal (parseInstruction name operand) := by
  unfold parseInstruction
  split
  · rintro name ⟨⟩
  · split_ifs
    · rintro name ⟨⟩
    · exact (Operand.isLocal_parse operand).map _
    · exact isLocal_ok _
    · rintro name ⟨⟩

theorem isLocal_parseDirective (name operand : List Char) :
    IsLocal (parseDirective name operand) := by
  unfold parseDirective
  dsimp only
  split_ifs
  · refine (isLocal_parseValue operand).bind fun v => ?_
    split
    · rintro name ⟨⟩
    · exact isLocal_ok _
  · exact (isLocal_parseItems operand).bind fun items =>
      (isLocal_mapM Operand.isLocal_parse items).bind fun xs => isLocal_ok _
  · exact (isLocal_parseItems operand).bind fun items =>
      (isLocal_mapM isLocal_parseByte items).bind fun data => isLocal_ok _
  · exact (isLocal_parseString operand).bind fun text => isLocal_ok _
  · rintro name ⟨⟩

theorem isLocal_parseStatement (cs : List Char) : IsLocal (parseStatement cs) := by
  unfold parseStatement
  dsimp only
  split
  · exact isLocal_parseDirective _ _
  · exact isLocal_parseInstruction _ _

theorem Line.isLocal_body_parse (cs : List Char) : IsLocal (Line.parse cs).body := by
  unfold Line.parse
  dsimp only
  split
  · exact isLocal_ok _
  · exact (isLocal_parseStatement _).map _

theorem isLocal_bindLabels (b : Builder) (names : List String) : IsLocal (bindLabels b names) := by
  induction names generalizing b with
  | nil => exact isLocal_ok _
  | cons name names ih =>
    rw [bindLabels]
    split
    · rintro name ⟨⟩
    · exact ih _

/-- No line is refused for a label that is not defined. -/
theorem Draft.isLocal_line (d : Draft) (n : Nat) (cs : List Char) :
    IsLocal (d.line n (Line.parse cs)) := by
  refine (isLocal_bindLabels _ _).bind fun b => (Line.isLocal_body_parse cs).bind fun s => ?_
  cases s <;> exact isLocal_ok _

end

/-! ### The first line that is refused -/

namespace Draft

variable {d d' : Draft} {n k : Nat} {ls xs ys : List (List Char)} {e : Error} {name : String}
  {program : List SourceLine}

theorem lines_append (d : Draft) (n : Nat) (xs ys : List (List Char)) :
    d.lines n (xs ++ ys) = d.lines n xs >>= fun d' => d'.lines (n + xs.length) ys := by
  induction xs generalizing d n with
  | nil => rfl
  | cons cs xs ih =>
    rw [List.cons_append, Draft.lines, Draft.lines]
    split
    · rw [ih, List.length_cons, Nat.add_right_comm n 1, Nat.add_assoc n]
    · rfl

/-- **The first line that cannot be taken in decides the error.** -/
theorem lines_eq_error_iff :
    d.lines n ls = .error e ↔
      ∃ before cs after d' p, ls = before ++ cs :: after ∧ d.lines n before = .ok d' ∧
        d'.line (n + before.length) (Line.parse cs) = .error p ∧
        e = .badLine (n + before.length) p := by
  constructor
  · intro h
    induction ls generalizing d n with
    | nil => cases h
    | cons cs ls ih =>
      rw [Draft.lines] at h
      split at h
      · rename_i d₁ hline
        obtain ⟨before, cs', after, d', p, rfl, hbefore, herror, rfl⟩ := ih h
        have hnumber : n + 1 + before.length = n + (cs :: before).length := by
          rw [List.length_cons]
          omega
        rw [hnumber] at herror ⊢
        exact ⟨cs :: before, cs', after, d', p, rfl, lines_cons_eq_ok_iff.2 ⟨d₁, hline, hbefore⟩,
          herror, rfl⟩
      · rename_i p hline
        cases h
        exact ⟨[], cs, ls, d, p, rfl, rfl, hline, rfl⟩
  · rintro ⟨before, cs, after, d', p, rfl, hbefore, hline, rfl⟩
    rw [lines_append, hbefore]
    change d'.lines _ _ = _
    rw [Draft.lines, hline]

/-- Finishing the draft of a program fails for a label that it does not have, and then at the first
use of one, or for an address that is no word. -/
theorem finish_ofProgram_eq_error (hlabels : (labelsOf program).Nodup)
    (h : (ofProgram program).finish = .error e) :
    (∃ name k, (usesOf program).find? (fun use => use.1 ∉ labelsOf program) = some (name, k) ∧
      e = .badLine k (.undefinedLabel name)) ∨ ∃ a, e = .addressRange a := by
  rw [← undefined?_ofProgram]
  cases hundefined : (ofProgram program).undefined? with
  | some use =>
    rw [finish_of_undefined hundefined] at h
    exact .inl ⟨use.1, use.2, rfl, (Except.error.inj h).symm⟩
  | none =>
    rw [finish_of_defined hundefined] at h
    refine .inr (Builder.finish_eq_error (duplicates_ofProgram hlabels) ?_ h)
    refine (forall_references_ofProgram_iff program fun name =>
      (ofProgram program).builder.addressOf name ≠ none).2 fun use huse hnone => ?_
    exact addressOf_ofProgram_eq_none_iff.1 hnone
      (undefined?_ofProgram_eq_none_iff.1 hundefined use huse)

end Draft

/-! ### The two kinds of errors -/

/-- The error of a line that cannot be taken in: something is wrong with it, and it is not that a
label is undefined. -/
def Error.Scanning : Error → Prop
  | badLine _ p => ∀ name, p ≠ .undefinedLabel name
  | _ => False

/-- Assembling the lines raises no error of the scan. -/
def Scans (ls : List (List Char)) : Prop := ∀ e, assembleLines ls = .error e → ¬ e.Scanning

section

variable {ls : List (List Char)} {e : Error} {k : Nat} {p : Problem} {name : String}
  {program : List SourceLine}

theorem assembleLines_of_spelled (hspelled : List.Forall₂ SourceLine.Spelled program ls)
    (hnodup : (labelsOf program).Nodup) : assembleLines ls = (Draft.ofProgram program).finish := by
  rw [assembleLines, Draft.lines_eq_ok_iff.2 ⟨program, hspelled, hnodup, rfl⟩]
  rfl

theorem assembleLines_of_error (h : Draft.lines {} 1 ls = .error e) :
    assembleLines ls = .error e := by
  rw [assembleLines, h]
  rfl

theorem scanning_of_lines_eq_error (h : Draft.lines {} 1 ls = .error e) : e.Scanning := by
  obtain ⟨before, cs, after, d, p, -, -, hline, rfl⟩ := Draft.lines_eq_error_iff.1 h
  rintro name rfl
  exact d.isLocal_line _ _ name hline

/-- Either the scan stops at a line, or there is a program. -/
theorem lines_eq_error_or_spelled (ls : List (List Char)) :
    (∃ e, Draft.lines {} 1 ls = .error e) ∨
      ∃ program, List.Forall₂ SourceLine.Spelled program ls ∧ (labelsOf program).Nodup := by
  cases hlines : Draft.lines {} 1 ls with
  | error e => exact .inl ⟨e, rfl⟩
  | ok d =>
    obtain ⟨program, hspelled, hnodup, -⟩ := Draft.lines_eq_ok_iff.1 hlines
    exact .inr ⟨program, hspelled, hnodup⟩

/-- Lines raise no error of the scan exactly if they spell a program. -/
theorem scans_iff :
    Scans ls ↔
      ∃ program, List.Forall₂ SourceLine.Spelled program ls ∧ (labelsOf program).Nodup := by
  constructor
  · intro h
    rcases lines_eq_error_or_spelled ls with ⟨e, he⟩ | hprogram
    · exact absurd (scanning_of_lines_eq_error he) (h e (assembleLines_of_error he))
    · exact hprogram
  · rintro ⟨program, hspelled, hnodup⟩ e he hscanning
    rw [assembleLines_of_spelled hspelled hnodup] at he
    rcases Draft.finish_ofProgram_eq_error hnodup he with ⟨name, k, -, rfl⟩ | ⟨a, rfl⟩
    · exact hscanning name rfl
    · exact hscanning

theorem Scans.take (h : Scans ls) (j : Nat) : Scans (ls.take j) := by
  obtain ⟨program, hspelled, hnodup⟩ := scans_iff.1 h
  refine scans_iff.2 ⟨program.take j, List.forall₂_take j hspelled, ?_⟩
  refine List.Nodup.sublist ?_ hnodup
  exact (List.take_sublist j program).flatMap SourceLine.labels

theorem lines_eq_error_of_scanning (h : assembleLines ls = .error e) (he : e.Scanning) :
    Draft.lines {} 1 ls = .error e := by
  rcases lines_eq_error_or_spelled ls with ⟨e', he'⟩ | hprogram
  · cases h.symm.trans (assembleLines_of_error he')
    exact he'
  · exact absurd he (scans_iff.2 hprogram e h)

/-- An error of the scan points at one of the lines.  The lines before it raise none, and the lines
behind it do not matter. -/
theorem prefix_of_lines_eq_error (h : Draft.lines {} 1 ls = .error (.badLine k p)) :
    (1 ≤ k ∧ k ≤ ls.length) ∧ Scans (ls.take (k - 1)) ∧
      ∀ ls', ls'.take k = ls.take k → assembleLines ls' = .error (.badLine k p) := by
  obtain ⟨before, cs, after, d, p', rfl, hbefore, hline, heq⟩ := Draft.lines_eq_error_iff.1 h
  cases heq
  refine ⟨?_, ?_, fun ls' hls' => ?_⟩
  · rw [List.length_append, List.length_cons]
    omega
  · rw [Nat.add_sub_cancel_left, List.take_left]
    obtain ⟨program, hspelled, hnodup, -⟩ := Draft.lines_eq_ok_iff.1 hbefore
    exact scans_iff.2 ⟨program, hspelled, hnodup⟩
  · have htake : (before ++ cs :: after).take (1 + before.length) = before ++ [cs] := by
      rw [Nat.add_comm, List.take_length_add_append]
      rfl
    have hsplit : ls' = before ++ cs :: ls'.drop (1 + before.length) := by
      rw [← List.singleton_append, ← List.append_assoc, ← htake, ← hls', List.take_append_drop]
    exact assembleLines_of_error
      (Draft.lines_eq_error_iff.2 ⟨before, cs, _, d, p, hsplit, hbefore, hline, rfl⟩)

/-- An undefined label is complained of at its first use, if the lines spell a program. -/
theorem assembleLines_eq_undefinedLabel_iff :
    assembleLines ls = .error (.badLine k (.undefinedLabel name)) ↔
      ∃ program, List.Forall₂ SourceLine.Spelled program ls ∧ (labelsOf program).Nodup ∧
        (usesOf program).find? (fun use => use.1 ∉ labelsOf program) = some (name, k) := by
  constructor
  · intro h
    rcases lines_eq_error_or_spelled ls with ⟨e, he⟩ | ⟨program, hspelled, hnodup⟩
    · cases h.symm.trans (assembleLines_of_error he)
      exact absurd rfl (scanning_of_lines_eq_error he name)
    · refine ⟨program, hspelled, hnodup, ?_⟩
      rw [assembleLines_of_spelled hspelled hnodup] at h
      rcases Draft.finish_ofProgram_eq_error hnodup h with ⟨name', k', hfind, heq⟩ | ⟨a, heq⟩
      · cases heq
        exact hfind
      · cases heq
  · rintro ⟨program, hspelled, hnodup, hfind⟩
    rw [assembleLines_of_spelled hspelled hnodup]
    rw [← Draft.undefined?_ofProgram] at hfind
    exact Draft.finish_of_undefined hfind

theorem bounds_of_undefinedLabel
    (h : assembleLines ls = .error (.badLine k (.undefinedLabel name))) : 1 ≤ k ∧ k ≤ ls.length := by
  obtain ⟨program, hspelled, -, hfind⟩ := assembleLines_eq_undefinedLabel_iff.1 h
  have hbounds := bounds_of_mem_usesFrom (List.mem_of_find?_eq_some hfind)
  have hlength := hspelled.length_eq
  omega

/-- **Where assembly errors point.**  Assembling gives an image, a label that is out of reach or a
line of the source.  If something else than an undefined label is wrong with line `k`, every source
with the same first `k` lines gives the same error, and the lines before raise no error of the scan.
An undefined label is complained of exactly if no line raises such an error, and the error has the
name and the line of the first use of a label that the program does not have. -/
theorem assembly_errors_point_at_lines (source : String) :
    ((∃ image, assemble source = .ok image) ∨
      (∃ a, assemble source = .error (.addressRange a)) ∨
      ∃ k p, assemble source = .error (.badLine k p) ∧
        1 ≤ k ∧ k ≤ (Text.lines source.toList).length) ∧
    (∀ k p, assemble source = .error (.badLine k p) → (∀ name, p ≠ .undefinedLabel name) →
      (∀ source', (Text.lines source'.toList).take k = (Text.lines source.toList).take k →
        assemble source' = .error (.badLine k p)) ∧
      Scans ((Text.lines source.toList).take (k - 1))) ∧
    ∀ k name, assemble source = .error (.badLine k (.undefinedLabel name)) ↔
      (∀ j, Scans ((Text.lines source.toList).take j)) ∧
      ∃ program, List.Forall₂ SourceLine.Spelled program (Text.lines source.toList) ∧
        (labelsOf program).Nodup ∧
        (usesOf program).find? (fun use => use.1 ∉ labelsOf program) = some (name, k) := by
  refine ⟨?_, fun k p h hp => ?_, fun k name => ?_⟩
  · cases h : assemble source with
    | ok image => exact .inl ⟨image, rfl⟩
    | error e =>
      rcases lines_eq_error_or_spelled (Text.lines source.toList) with
        ⟨e', hlines⟩ | ⟨program, hspelled, hnodup⟩
      · cases h.symm.trans (assembleLines_of_error hlines)
        obtain ⟨before, cs, after, d, p, -, -, -, rfl⟩ := Draft.lines_eq_error_iff.1 hlines
        exact .inr (.inr ⟨_, p, rfl, (prefix_of_lines_eq_error hlines).1⟩)
      · have hfinish := h
        rw [assemble, assembleLines_of_spelled hspelled hnodup] at hfinish
        rcases Draft.finish_ofProgram_eq_error hnodup hfinish with ⟨name, k, -, rfl⟩ | ⟨a, rfl⟩
        · exact .inr (.inr ⟨k, _, rfl, bounds_of_undefinedLabel h⟩)
        · exact .inr (.inl ⟨a, rfl⟩)
  · have hlines := lines_eq_error_of_scanning h hp
    obtain ⟨-, hscans, hsame⟩ := prefix_of_lines_eq_error hlines
    exact ⟨fun source' hsource' => hsame _ hsource', hscans⟩
  · rw [assemble, assembleLines_eq_undefinedLabel_iff]
    refine ⟨fun h => ⟨fun j => ?_, h⟩, fun h => h.2⟩
    obtain ⟨program, hspelled, hnodup, -⟩ := h
    exact (scans_iff.2 ⟨program, hspelled, hnodup⟩).take j

/-- The second line is to blame, although the first one uses a label that is nowhere, and whatever
comes behind; the first line alone is scanned without complaint. -/
theorem assembly_errors_point_at_lines_second_line :
    assemble "PUSH x\nHALT 1" = .error (.badLine 2 (.unwantedOperand .halt)) ∧
      (∀ source, (Text.lines source.toList).take 2 = ["PUSH x".toList, "HALT 1".toList] →
        assemble source = .error (.badLine 2 (.unwantedOperand .halt))) ∧
      Scans ["PUSH x".toList] := by
  have h : assemble "PUSH x\nHALT 1" = .error (.badLine 2 (.unwantedOperand .halt)) := by
    decide +kernel
  have hlines : Text.lines "PUSH x\nHALT 1".toList = ["PUSH x".toList, "HALT 1".toList] := by decide
  obtain ⟨-, hscanning, -⟩ := assembly_errors_point_at_lines "PUSH x\nHALT 1"
  obtain ⟨hsame, hscans⟩ := hscanning 2 _ h (by rintro name ⟨⟩)
  rw [hlines] at hsame hscans
  exact ⟨h, fun source hsource => hsame source hsource, hscans⟩

end

end Assembly

end TapeMachine
