import TapeMachine.Text.Basic

/-!
# Texts and their lines

The lines of a text, found at its newlines (`Text.lines_append`, `Text.lines_of_not_mem`).  Lines
that are put together to a text, with a newline behind each or between them, are found again
(`Text.lines_flatMap`, `Text.lines_intercalate`), and a line can be exchanged for another where it
stands (`Text.exists_lines_exchange`).
-/

namespace TapeMachine

namespace Text

variable {line cs current : List Char}

theorem linesFrom_of_not_mem (h : '\n' ∉ cs) (hne : current.reverse ++ cs ≠ []) :
    linesFrom current cs = [current.reverse ++ cs] := by
  induction cs generalizing current with
  | nil =>
    cases current with
    | nil => exact absurd rfl hne
    | cons c current => simp [linesFrom]
  | cons c cs ih =>
    have hc : c ≠ '\n' := fun h' => h (h' ▸ List.mem_cons_self)
    have happ : (c :: current).reverse ++ cs = current.reverse ++ c :: cs := by simp
    rw [linesFrom, if_neg hc, ih (fun h' => h (List.mem_cons_of_mem _ h')) (by rwa [happ]), happ]

theorem linesFrom_append (h : '\n' ∉ line) :
    linesFrom current (line ++ '\n' :: cs) =
      (dropReturn (line.reverse ++ current)).reverse :: lines cs := by
  induction line generalizing current with
  | nil => simp [linesFrom, lines]
  | cons c line ih =>
    have hc : c ≠ '\n' := fun h' => h (h' ▸ List.mem_cons_self)
    rw [List.cons_append, linesFrom, if_neg hc, ih fun h' => h (List.mem_cons_of_mem _ h')]
    simp

theorem dropReturn_cons_of_ne {c : Char} (h : c ≠ '\r') : dropReturn (c :: cs) = c :: cs := by
  unfold dropReturn
  split
  · rename_i h'
    exact absurd (List.cons.inj h').1 h
  · rfl

/-- A text without a newline is one line, whatever it ends with. -/
theorem lines_of_not_mem (h : '\n' ∉ cs) (hne : cs ≠ []) : lines cs = [cs] :=
  linesFrom_of_not_mem h hne

/-- The first line of a text ends at its first newline. -/
theorem lines_append (h : '\n' ∉ line) :
    lines (line ++ '\n' :: cs) = (dropReturn line.reverse).reverse :: lines cs := by
  rw [lines, linesFrom_append h, List.append_nil]

/-! ### Writing lines and reading them back -/

/-- A text that can be a line: it has no newline, and no carriage return at its end that a newline
behind it would take away. -/
structure IsLine (cs : List Char) : Prop where
  newline_not_mem : '\n' ∉ cs
  getLast?_ne : cs.getLast? ≠ some '\r'

theorem dropReturn_reverse (h : line.getLast? ≠ some '\r') :
    dropReturn line.reverse = line.reverse := by
  rw [← List.head?_reverse] at h
  cases hrev : line.reverse with
  | nil => rfl
  | cons c cs =>
    rw [hrev, List.head?_cons, ne_eq, Option.some.injEq] at h
    exact dropReturn_cons_of_ne h

theorem dropReturn_concat_reverse (front : List Char) :
    dropReturn (front ++ ['\r']).reverse = front.reverse := by
  rw [List.reverse_append]
  rfl

/-- Lines that are written with a newline behind each are read back. -/
theorem lines_flatMap {ls : List (List Char)} (h : ∀ line ∈ ls, IsLine line) :
    lines (ls.flatMap (· ++ ['\n'])) = ls := by
  induction ls with
  | nil => rfl
  | cons line ls ih =>
    have hline := h line List.mem_cons_self
    rw [List.flatMap_cons, List.append_assoc, List.singleton_append,
      lines_append hline.newline_not_mem, dropReturn_reverse hline.getLast?_ne,
      List.reverse_reverse, ih fun l hl => h l (List.mem_cons_of_mem _ hl)]

/-- Lines that are written with a newline between one and the next are read back, if none is
empty. -/
theorem lines_intercalate {ls : List (List Char)} (h : ∀ line ∈ ls, IsLine line)
    (hne : ∀ line ∈ ls, line ≠ []) : lines (['\n'].intercalate ls) = ls := by
  induction ls with
  | nil => rfl
  | cons line ls ih =>
    have hline := h line List.mem_cons_self
    cases ls with
    | nil =>
      rw [List.intercalate_singleton]
      exact lines_of_not_mem hline.newline_not_mem (hne line List.mem_cons_self)
    | cons next ls =>
      rw [List.intercalate_cons_cons, List.append_assoc, List.singleton_append,
        lines_append hline.newline_not_mem, dropReturn_reverse hline.getLast?_ne,
        List.reverse_reverse, ih (fun l hl => h l (List.mem_cons_of_mem _ hl))
          (fun l hl => hne l (List.mem_cons_of_mem _ hl))]

/-! ### Exchanging a line -/

theorem newline_not_mem_dropReturn (h : '\n' ∉ cs) : '\n' ∉ (dropReturn cs.reverse).reverse := by
  unfold dropReturn
  split
  · rename_i rest heq
    have hcs : cs = rest.reverse ++ ['\r'] := by
      rw [← List.reverse_reverse cs, heq, List.reverse_cons]
    rw [hcs] at h
    exact fun hmem => h (List.mem_append_left _ hmem)
  · rwa [List.reverse_reverse]

/-- A text with a newline starts with a line that ends there. -/
theorem exists_eq_append_newline (h : '\n' ∈ cs) :
    ∃ line rest, '\n' ∉ line ∧ cs = line ++ '\n' :: rest := by
  obtain ⟨line, rest, rfl, hline⟩ := List.eq_append_cons_of_mem h
  exact ⟨line, rest, hline, rfl⟩

/-- The first line of a text can be exchanged for another: what ends it stays. -/
theorem exists_lines_cons (hline : '\n' ∉ line) (rest : List Char) :
    ∃ stop, line ++ '\n' :: rest = (dropReturn line.reverse).reverse ++ stop ∧
      ∀ new, '\n' ∉ new →
        (new.getLast? = some '\r' → (dropReturn line.reverse).reverse.getLast? = some '\r') →
        lines (new ++ stop) = new :: lines rest := by
  by_cases hreturn : line.getLast? = some '\r'
  · -- the return goes with the newline
    obtain ⟨front, rfl⟩ : ∃ front, line = front ++ ['\r'] := List.getLast?_eq_some_iff.1 hreturn
    rw [dropReturn_concat_reverse, List.reverse_reverse]
    refine ⟨'\r' :: '\n' :: rest, by simp, fun new hnew _ => ?_⟩
    have hnewline : '\n' ∉ new ++ ['\r'] := by simp [hnew]
    have hlines : lines (new ++ ['\r'] ++ '\n' :: rest) = _ := lines_append hnewline
    rw [List.append_assoc, List.singleton_append] at hlines
    rw [hlines, dropReturn_concat_reverse, List.reverse_reverse]
  · rw [dropReturn_reverse hreturn, List.reverse_reverse]
    refine ⟨'\n' :: rest, rfl, fun new hnew hlast => ?_⟩
    have hkeep : new.getLast? ≠ some '\r' := fun h => hreturn (hlast h)
    rw [lines_append hnew, dropReturn_reverse hkeep, List.reverse_reverse]

/-- A line of a text can be exchanged for another, if that is not empty and does not end in a return
that a newline behind it would take away. -/
theorem exists_lines_exchange {before after : List (List Char)}
    (h : lines cs = before ++ line :: after) :
    '\n' ∉ line ∧ ∃ front back, cs = front ++ (line ++ back) ∧
      ∀ new, new ≠ [] → '\n' ∉ new →
        (new.getLast? = some '\r' → line.getLast? = some '\r') →
        lines (front ++ (new ++ back)) = before ++ new :: after := by
  induction before generalizing cs with
  | nil =>
    by_cases hmem : '\n' ∈ cs
    · obtain ⟨first, rest, hfirst, rfl⟩ := exists_eq_append_newline hmem
      rw [lines_append hfirst] at h
      obtain ⟨rfl, rfl⟩ := List.cons.inj h
      obtain ⟨stop, hstop, hnew⟩ := exists_lines_cons hfirst rest
      exact ⟨newline_not_mem_dropReturn hfirst, [], stop, hstop, fun new _ => hnew new⟩
    · have hne : cs ≠ [] := by
        rintro rfl
        cases h
      rw [lines_of_not_mem hmem hne] at h
      cases h
      refine ⟨hmem, [], [], (List.append_nil _).symm, fun new hnew hnewline _ => ?_⟩
      rw [List.nil_append, List.append_nil, lines_of_not_mem hnewline hnew, List.nil_append]
  | cons first before ih =>
    -- the line is not the first one, so there is a newline before it
    by_cases hmem : '\n' ∈ cs
    · obtain ⟨text, rest, htext, rfl⟩ := exists_eq_append_newline hmem
      rw [lines_append htext] at h
      obtain ⟨rfl, hrest⟩ := List.cons.inj h
      obtain ⟨hline, front, back, rfl, hnew⟩ := ih hrest
      refine ⟨hline, text ++ '\n' :: front, back, by simp, fun new hne hnewline hlast => ?_⟩
      rw [List.append_assoc, List.cons_append, lines_append htext, hnew new hne hnewline hlast,
        List.cons_append]
    · have hne : cs ≠ [] := by
        rintro rfl
        cases h
      rw [lines_of_not_mem hmem hne] at h
      have hlength := congrArg List.length h
      simp at hlength

end Text

end TapeMachine
