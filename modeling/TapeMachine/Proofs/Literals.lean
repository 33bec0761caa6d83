import TapeMachine.Proofs.Snippets

/-!
# Literals that are written and read

Every text can be written as a literal: backslashes, quotes and newlines are escaped, and all other
characters stand for themselves (`Assembly.quoted`).  The scan for comments is inside the literal
from its first quote to its last (`Assembly.scan_quoted`), so semicolons, blanks and colons in it do
no harm, and what is between the quotes is read back (`Assembly.unescape_flatMap_escape`).  In
program texts this gives the bytes of a string and the code point of a character, whatever comment
follows them (`Assembly.literals_read_back`).
-/

namespace TapeMachine

namespace Assembly

/-- A character as it is written in a literal. -/
def escape (c : Char) : List Char :=
  if c = '\n' then ['\x5c', 'n']
  else if c = '\x5c' ∨ c = '\x22' ∨ c = '\x27' then ['\x5c', c]
  else [c]

/-- A text as a literal between two quotes. -/
def quoted (quote : Char) (cs : List Char) : List Char := quote :: (cs.flatMap escape ++ [quote])

variable {q c : Char} {cs : List Char}

/-- What becomes of a character: it stands for itself, unless it needs a backslash. -/
theorem escape_cases (c : Char) :
    (∃ d, escape c = ['\x5c', d] ∧ escapeValue d = some c ∧ d ≠ '\n') ∨
      escape c = [c] ∧ c ≠ '\n' ∧ c ≠ '\x5c' ∧ ¬ IsQuote c := by
  unfold escape
  split
  · rename_i hc
    exact .inl ⟨'n', rfl, by rw [hc]; decide, by decide⟩
  · rename_i hnewline
    split
    · rename_i hc
      refine .inl ⟨c, rfl, ?_, hnewline⟩
      rcases hc with rfl | rfl | rfl <;> decide
    · rename_i hc
      rw [not_or] at hc
      exact .inr ⟨rfl, hnewline, hc⟩

/-! ### Reading back -/

theorem unescape_escape_append (c : Char) (cs : List Char) :
    unescape (escape c ++ cs) = (unescape cs).map (c :: ·) := by
  rcases escape_cases c with ⟨d, heq, hvalue, -⟩ | ⟨heq, -, hbackslash, -⟩
  · rw [heq, List.cons_append, List.cons_append, List.nil_append, unescape, hvalue]
  · rw [heq, List.singleton_append, unescape]
    · rintro h -
      exact hbackslash h
    · rintro d ds h -
      exact hbackslash h

theorem unescape_flatMap_escape (cs : List Char) : unescape (cs.flatMap escape) = .ok cs := by
  induction cs with
  | nil => rfl
  | cons c cs ih =>
    rw [List.flatMap_cons, unescape_escape_append, ih]
    rfl

theorem dropLast?_concat (q : Char) (cs : List Char) : dropLast? q (cs ++ [q]) = some cs := by
  simp [dropLast?]

theorem parseString_quoted (cs : List Char) : parseString (quoted '\x22' cs) = .ok cs := by
  simp only [quoted, parseString, dropLast?_concat, unescape_flatMap_escape]

theorem trim_quoted (hq : IsQuote q) (cs : List Char) : Text.trim (quoted q cs) = quoted q cs := by
  have hvisible : Text.isBlank q = false := by
    rcases hq with rfl | rfl <;> decide
  refine Text.trim_of_ends (fun c hc => ?_) fun c hc => ?_
  · cases hc
    exact hvisible
  · rw [quoted, ← List.cons_append, List.getLast?_concat] at hc
    cases hc
    exact hvisible

theorem parseValue_quoted (c : Char) :
    parseValue (quoted '\x27' [c]) = .ok (Int32.ofNat c.toNat) := by
  have hunescape := unescape_flatMap_escape [c]
  have hcharacter : parseCharacter ([c].flatMap escape ++ ['\x27']) = .ok c := by
    simp only [parseCharacter, dropLast?_concat, hunescape]
    rfl
  rw [parseValue, trim_quoted (.inr rfl)]
  simp only [quoted, hcharacter]
  rfl

/-! ### Scanning -/

/-- The scan stays inside a literal at every character of it. -/
theorem scan_escape (hq : IsQuote q) (c : Char) :
    dropComment (.inside q) (escape c) = escape c ∧
      (Scan.inside q).after (escape c) = .inside q := by
  have hbackslash : (Scan.inside q).next '\x5c' = .escaped q := by rw [Scan.next, if_pos rfl]
  rcases escape_cases c with ⟨d, heq, -, -⟩ | ⟨heq, -, hc, hquote⟩
  · rw [heq]
    refine ⟨?_, ?_⟩
    · simp [dropComment, hbackslash]
    · simp only [Scan.after, List.foldl_cons, List.foldl_nil, hbackslash]
      rfl
  · rw [heq]
    have hne : c ≠ q := by
      rintro rfl
      exact hquote hq
    refine ⟨by simp [dropComment], ?_⟩
    simp only [Scan.after, List.foldl_cons, List.foldl_nil]
    rw [Scan.next, if_neg hc, if_neg hne]

theorem scan_flatMap_escape (hq : IsQuote q) (cs : List Char) :
    dropComment (.inside q) (cs.flatMap escape) = cs.flatMap escape ∧
      (Scan.inside q).after (cs.flatMap escape) = .inside q := by
  induction cs with
  | nil => exact ⟨rfl, rfl⟩
  | cons c cs ih =>
    obtain ⟨hdrop, hafter⟩ := scan_escape hq c
    rw [List.flatMap_cons, dropComment_append hdrop, Scan.after_append, hafter, ih.1]
    exact ⟨rfl, ih.2⟩

/-- The scan enters a literal at its first quote and leaves it at its last. -/
theorem scan_quoted (hq : IsQuote q) (cs : List Char) :
    dropComment .outside (quoted q cs) = quoted q cs ∧
      Scan.outside.after (quoted q cs) = .outside := by
  obtain ⟨hdrop, hafter⟩ := scan_flatMap_escape hq cs
  have hsemicolon : q ≠ ';' := hq.ne (by decide) (by decide)
  refine ⟨?_, ?_⟩
  · rw [quoted, dropComment, if_neg fun h => hsemicolon h.2, hq.next_outside,
      dropComment_append hdrop, hafter]
    simp [dropComment]
  · rw [quoted, Scan.after, List.foldl_cons, hq.next_outside]
    change (Scan.inside q).after (cs.flatMap escape ++ [q]) = _
    rw [Scan.after_append, hafter]
    exact hq.next_inside

/-! ### Literals in sources -/

theorem newline_not_mem_escape (c : Char) : '\n' ∉ escape c := by
  rcases escape_cases c with ⟨d, heq, -, hd⟩ | ⟨heq, hc, -⟩
  · rw [heq]
    simp [Ne.symm hd]
  · rw [heq]
    simp [Ne.symm hc]

theorem newline_not_mem_quoted (hq : IsQuote q) (cs : List Char) : '\n' ∉ quoted q cs := by
  have hne : '\n' ≠ q := (hq.ne (by decide) (by decide)).symm
  simp only [quoted, List.mem_cons, List.mem_append, List.mem_flatMap, List.not_mem_nil, or_false,
    not_or, not_exists, not_and]
  exact ⟨hne, fun c _ => newline_not_mem_escape c, hne⟩

/-- A source of one line: a name, a literal and a comment. -/
def literalLine (name : String) (q : Char) (cs : List Char) (comment : String) : String :=
  name ++ " " ++ String.ofList (quoted q cs) ++ " ;" ++ comment

variable {name comment : String}

theorem toList_literalLine (name : String) (q : Char) (cs : List Char) (comment : String) :
    (literalLine name q cs comment).toList =
      name.toList ++ ' ' :: (quoted q cs ++ ' ' :: ';' :: comment.toList) := by
  simp [literalLine]

/-- The comment is all that is dropped from such a line. -/
theorem stripComment_literalLine (hname : IsWord name.toList) (hq : IsQuote q) (cs : List Char)
    (comment : String) :
    stripComment (literalLine name q cs comment).toList =
      name.toList ++ ' ' :: (quoted q cs ++ [' ']) := by
  obtain ⟨hdrop, hafter⟩ := scan_quoted hq cs
  have hcomment : dropComment .outside (' ' :: ';' :: comment.toList) = [' '] := rfl
  rw [toList_literalLine, stripComment_name hname, stripComment, dropComment_append hdrop, hafter,
    hcomment]

/-- A line with a literal assembles to what it spells. -/
theorem assemble_literalLine {s : Statement} (hname : IsWord name.toList) (hq : IsQuote q)
    (hcomment : '\n' ∉ comment.toList) (hs : s.Spelled name.toList (quoted q cs))
    (hlabels : s.labels = []) :
    assemble (literalLine name q cs comment) = .ok (s.emit .empty).image := by
  have hline : '\n' ∉ (literalLine name q cs comment).toList := by
    have hvisible : '\n' ∉ name.toList := fun hmem => by cases hname.plain '\n' hmem
    rw [toList_literalLine]
    simp [hvisible, newline_not_mem_quoted hq, hcomment]
  have htrim : Text.trim (quoted q cs ++ [' ']) = quoted q cs := by
    have hblank : ∀ c ∈ [' '], Text.isBlank c = true := by simp; decide
    have happend := Text.trim_append (List.forall_mem_nil _) hblank (quoted q cs)
    rwa [List.nil_append, trim_quoted hq] at happend
  refine (assemble_line_iff hname hline (stripComment_literalLine hname hq cs comment)).2 ?_
  exact ⟨s, by rwa [htrim], hlabels, rfl⟩

/-- **Literals are read back.**  Whatever text stands between the quotes and in the comment, a
string gives its UTF-8 bytes, and a character gives its code point as a word. -/
theorem literals_read_back (s comment : String) (hcomment : '\n' ∉ comment.toList) :
    assemble (literalLine ".string" '\x22' s.toList comment) =
        .ok (Utf8.encode s.toList).toArray ∧
      ∀ c : Char, assemble (literalLine "PUSH" '\x27' [c] comment) =
        .ok (Opcode.push.byte :: Word.encode (Int32.ofNat c.toNat)).toArray := by
  refine ⟨?_, fun c => ?_⟩
  · have hname : IsWord ".string".toList := ⟨by decide, List.all_eq_true.1 (by decide)⟩
    have hs : (Statement.string s).Spelled ".string".toList (quoted '\x22' s.toList) := by
      have hspelled := Statement.Spelled.string rfl (parseString_quoted s.toList)
      rwa [String.ofList_toList] at hspelled
    have himage : ((Statement.string s).emit .empty).image = (Utf8.encode s.toList).toArray := by
      rw [← Array.toList_inj]
      exact Builder.atEnd_empty.image_bytes _
    rw [assemble_literalLine hname (.inl rfl) hcomment hs rfl, himage]
  · have hname : IsWord "PUSH".toList := (isWord_mnemonic .push).1
    have hs : (Statement.immediate .push (.value (Int32.ofNat c.toNat))).Spelled "PUSH".toList
        (quoted '\x27' [c]) := .immediate rfl rfl (.value (parseValue_quoted c))
    rw [assemble_literalLine hname (.inr rfl) hcomment hs rfl,
      image_emit_immediate]

/-- A string of everything that could end it too early, a colon, a comment that looks like the end
of one, and the quote of the other kind of literal. -/
theorem literals_read_back_quotes :
    '\n' ∉ "\"; it's".toList ∧
      assemble ".string \"a\\\"; b:\\n\" ;\"; it's" = .ok #[97, 34, 59, 32, 98, 58, 10] ∧
      assemble "PUSH '\\'' ;\"; it's" = .ok #[1, 39, 0, 0, 0] := by
  have hcomment : '\n' ∉ "\"; it's".toList := by decide
  have h := literals_read_back "a\"; b:\n" "\"; it's" hcomment
  refine ⟨hcomment, ?_, ?_⟩
  · have hsource : literalLine ".string" '\x22' "a\"; b:\n".toList "\"; it's" =
        ".string \"a\\\"; b:\\n\" ;\"; it's" := by decide +kernel
    have hbytes : (Utf8.encode "a\"; b:\n".toList).toArray = #[97, 34, 59, 32, 98, 58, 10] := by
      decide +kernel
    rw [← hsource, h.1, hbytes]
  · have hsource : literalLine "PUSH" '\x27' ['\x27'] "\"; it's" = "PUSH '\\'' ;\"; it's" := by
      decide +kernel
    rw [← hsource, h.2]
    decide +kernel

end Assembly

end TapeMachine
