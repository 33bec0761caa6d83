import TapeMachine.Proofs.DataWords

/-!
# Where literals end

A literal is read twice: the scan for comments looks for the quote that ends it, and the reader of
values takes the quotes off both ends of an operand and replaces the escapes between them.  The scan
ends a literal at the first copy of its quote with an even number of backslashes in front of it, a
bare quote (`Assembly.BareQuote`).  The reader takes bare quotes for text.

* Up to the first bare quote the scan stays inside the literal (`Assembly.after_of_not_bareQuote`);
* what the reader accepts has an even number of backslashes at its end, so that the last quote is
  never escaped (`Assembly.backslashes_of_unescape`).

So the two agree on where an accepted literal ends exactly if there is no bare quote in it, and
otherwise the scan goes on outside of literals behind the first one
(`Assembly.literals_end_at_bare_quotes`).
-/

namespace TapeMachine

namespace Assembly

variable {q c : Char} {cs ds inner text x : List Char}

/-! ### Bare quotes -/

/-- The number of backslashes at the end of a text. -/
def backslashes (cs : List Char) : Nat := (cs.reverse.takeWhile (· = '\x5c')).length

/-- A copy of the quote that no backslash escapes: those in front of it escape each other. -/
def BareQuote (q : Char) (cs : List Char) : Prop :=
  ∃ front back, cs = front ++ q :: back ∧ backslashes front % 2 = 0

theorem exists_mem_inits_iff :
    (∃ front ∈ cs.inits, front ++ [q] <+: cs ∧ backslashes front % 2 = 0) ↔ BareQuote q cs := by
  constructor
  · rintro ⟨front, -, ⟨back, rfl⟩, heven⟩
    exact ⟨front, back, by simp, heven⟩
  · rintro ⟨front, back, rfl, heven⟩
    exact ⟨front, by simp, ⟨back, by simp⟩, heven⟩

instance (q : Char) (cs : List Char) : Decidable (BareQuote q cs) :=
  decidable_of_iff _ exists_mem_inits_iff

theorem backslashes_concat_backslash (cs : List Char) :
    backslashes (cs ++ ['\x5c']) = backslashes cs + 1 := by
  simp [backslashes]

theorem backslashes_concat_of_ne (hc : c ≠ '\x5c') (cs : List Char) :
    backslashes (cs ++ [c]) = 0 := by
  simp [backslashes, hc]

/-- Backslashes that escape each other can be left out in front. -/
theorem backslashes_append (hcs : backslashes cs % 2 = 0) (ds : List Char) :
    backslashes (cs ++ ds) % 2 = backslashes ds % 2 := by
  unfold backslashes at hcs ⊢
  rw [List.reverse_append, List.takeWhile_append]
  split
  · rename_i hall
    rw [List.length_append, ← hall]
    omega
  · rfl

theorem not_bareQuote_nil (q : Char) : ¬ BareQuote q [] := by
  rintro ⟨front, back, heq, -⟩
  simp at heq

theorem bareQuote_concat_iff :
    BareQuote q (cs ++ [c]) ↔ BareQuote q cs ∨ c = q ∧ backslashes cs % 2 = 0 := by
  constructor
  · rintro ⟨front, back, heq, heven⟩
    rcases List.eq_nil_or_concat back with rfl | ⟨back, d, rfl⟩
    · obtain ⟨rfl, hc⟩ := List.append_inj' heq rfl
      exact .inr ⟨List.singleton_inj.1 hc, heven⟩
    · rw [List.concat_eq_append, ← List.cons_append, ← List.append_assoc] at heq
      exact .inl ⟨front, back, (List.append_inj' heq rfl).1, heven⟩
  · rintro (⟨front, back, rfl, heven⟩ | ⟨rfl, heven⟩)
    · exact ⟨front, back ++ [c], by simp, heven⟩
    · exact ⟨cs, [], rfl, heven⟩

theorem BareQuote.append (h : BareQuote q cs) (ds : List Char) : BareQuote q (cs ++ ds) := by
  obtain ⟨front, back, rfl, heven⟩ := h
  exact ⟨front, back ++ ds, by simp, heven⟩

/-- Where there are bare quotes, there is a first one. -/
theorem BareQuote.first (h : BareQuote q cs) :
    ∃ front back, cs = front ++ q :: back ∧ backslashes front % 2 = 0 ∧ ¬ BareQuote q front := by
  induction cs using List.reverseRecOn with
  | nil => exact absurd h (not_bareQuote_nil q)
  | append_singleton cs c ih =>
    by_cases hcs : BareQuote q cs
    · obtain ⟨front, back, rfl, hfirst⟩ := ih hcs
      exact ⟨front, back ++ [c], by simp, hfirst⟩
    · rcases bareQuote_concat_iff.1 h with hbare | ⟨rfl, heven⟩
      · exact absurd hbare hcs
      · exact ⟨cs, [], rfl, heven, hcs⟩

/-! ### The scan -/

/-- The scan stays inside a literal up to the first bare quote. -/
theorem after_of_not_bareQuote (h : ¬ BareQuote q cs) :
    (Scan.inside q).after cs = if backslashes cs % 2 = 0 then .inside q else .escaped q := by
  induction cs using List.reverseRecOn with
  | nil => rfl
  | append_singleton cs c ih =>
    rw [bareQuote_concat_iff, not_or] at h
    rw [Scan.after_append, ih h.1]
    change Scan.next _ c = _
    by_cases hc : c = '\x5c'
    · subst hc
      rw [backslashes_concat_backslash]
      rcases Nat.mod_two_eq_zero_or_one (backslashes cs) with heven | hodd
      · rw [if_pos heven, if_neg (by omega)]
        rfl
      · rw [if_neg (by omega), if_pos (by omega)]
        rfl
    · rw [backslashes_concat_of_ne hc]
      rcases Nat.mod_two_eq_zero_or_one (backslashes cs) with heven | hodd
      · have hq : c ≠ q := fun hq => h.2 ⟨hq, heven⟩
        rw [if_pos heven, Scan.next, if_neg hc, if_neg hq]
        rfl
      · rw [if_neg (by omega)]
        rfl

/-- The scan of a text is inside one literal from its first character to its last, which closes
it. -/
structure ClosesAtEnd (q : Char) (x : List Char) : Prop where
  /-- Between two characters of the text the scan is inside the literal. -/
  inside : ∀ front back, x = front ++ back → front ≠ [] → back ≠ [] →
    Scan.outside.after front = .inside q ∨ Scan.outside.after front = .escaped q
  /-- Behind the text it is outside. -/
  closed : Scan.outside.after x = .outside

theorem after_open (hq : IsQuote q) (cs : List Char) :
    Scan.outside.after (q :: cs) = (Scan.inside q).after cs := by
  rw [Scan.after, List.foldl_cons, hq.next_outside]
  rfl

theorem after_close (hq : IsQuote q) (cs : List Char) (h : ¬ BareQuote q cs) :
    Scan.outside.after (q :: (cs ++ [q])) =
      if backslashes cs % 2 = 0 then .outside else .inside q := by
  rw [after_open hq, Scan.after_append, after_of_not_bareQuote h]
  split
  · exact hq.next_inside
  · rfl

/-- The last quote closes a literal if no bare quote has done so before and if it is not escaped. -/
theorem closesAtEnd_iff (hq : IsQuote q) :
    ClosesAtEnd q (q :: (cs ++ [q])) ↔ ¬ BareQuote q cs ∧ backslashes cs % 2 = 0 := by
  constructor
  · intro hcloses
    have hbare : ¬ BareQuote q cs := by
      intro hbare
      obtain ⟨front, back, rfl, heven, hfirst⟩ := hbare.first
      have hinside := hcloses.inside (q :: (front ++ [q])) (back ++ [q]) (by simp) (by simp)
        (by simp)
      rw [after_close hq front hfirst, if_pos heven] at hinside
      rcases hinside with hinside | hinside <;> cases hinside
    refine ⟨hbare, ?_⟩
    by_contra hodd
    have hclosed := hcloses.closed
    rw [after_close hq cs hbare, if_neg hodd] at hclosed
    cases hclosed
  · rintro ⟨hbare, heven⟩
    refine ⟨?_, by rw [after_close hq cs hbare, if_pos heven]⟩
    -- a front of the text is the opening quote and a front of the inside, which has no bare quote
    intro front back heq hfront hback
    obtain ⟨d, front, rfl⟩ := List.exists_cons_of_ne_nil hfront
    obtain ⟨back, e, rfl⟩ := (List.eq_nil_or_concat back).resolve_left hback
    rw [List.concat_eq_append, List.cons_append, ← List.append_assoc] at heq
    obtain ⟨rfl, htail⟩ := List.cons.inj heq
    obtain ⟨rfl, -⟩ := List.append_inj' htail rfl
    rw [after_open hq, after_of_not_bareQuote fun h => hbare (h.append back)]
    split
    · exact .inl rfl
    · exact .inr rfl

/-- Without a semicolon outside of literals there is no comment. -/
theorem dropComment_eq_self {s : Scan}
    (h : ∀ front back, cs = front ++ ';' :: back → s.after front ≠ .outside) :
    dropComment s cs = cs := by
  induction cs generalizing s with
  | nil => rfl
  | cons c cs ih =>
    have hc : ¬ (s = .outside ∧ c = ';') := by
      rintro ⟨hs, rfl⟩
      exact h [] cs rfl hs
    rw [dropComment, if_neg hc, ih]
    rintro front back rfl
    exact h (c :: front) back rfl

/-- Comments start behind a closed literal only. -/
theorem ClosesAtEnd.stripComment_append (hq : IsQuote q) (h : ClosesAtEnd q (q :: cs))
    (rest : List Char) : stripComment (q :: cs ++ rest) = q :: cs ++ stripComment rest := by
  have hdrop : dropComment .outside (q :: cs) = q :: cs := by
    apply dropComment_eq_self
    intro front back heq hafter
    have hfront : front ≠ [] := by
      rintro rfl
      exact hq.ne (by decide) (by decide) (List.cons.inj heq).1
    have hinside := h.inside front _ heq hfront (List.cons_ne_nil _ _)
    rw [hafter] at hinside
    rcases hinside with hinside | hinside <;> cases hinside
  rw [stripComment, dropComment_append hdrop, h.closed]
  rfl

/-! ### The reader -/

/-- The reader accepts a text as a literal between two quotes. -/
inductive Accepts : Char → List Char → Prop
  /-- A string. -/
  | string {x text : List Char} : parseString x = .ok text → Accepts '\x22' x
  /-- A character. -/
  | character {x : List Char} {v : Word} : x.head? = some '\x27' → parseValue x = .ok v →
    Accepts '\x27' x

theorem Accepts.isQuote (h : Accepts q x) : IsQuote q := by
  cases h with
  | string => exact .inl rfl
  | character => exact .inr rfl

theorem eq_of_parseString (h : parseString x = .ok text) :
    ∃ inner, x = '\x22' :: (inner ++ ['\x22']) ∧ unescape inner = .ok text := by
  unfold parseString at h
  split at h
  · split at h
    · rename_i body _ inner hinner
      exact ⟨inner, by rw [eq_concat_of_dropLast? hinner], h⟩
    · cases h
  · cases h

/-- An accepted literal stands between its quotes, and its escapes can be replaced. -/
theorem Accepts.exists_inner (htrim : Text.trim x = x) (h : Accepts q x) :
    ∃ inner text, x = q :: (inner ++ [q]) ∧ unescape inner = .ok text ∧
      (q = '\x27' → ∃ c, text = [c]) := by
  cases h with
  | string htext =>
    obtain ⟨inner, hx, hinner⟩ := eq_of_parseString htext
    exact ⟨inner, _, hx, hinner, fun hq => by cases hq⟩
  | character hhead hv =>
    rcases parseValue_cases hv with ⟨inner, c, hx, hinner⟩ | hnumeral
    · rw [htrim] at hx
      exact ⟨inner, [c], hx, hinner, fun _ => ⟨c, rfl⟩⟩
    · rw [htrim] at hnumeral
      have hnumeric := isNumeric_of_parseNumeral hnumeral (List.mem_of_head? hhead)
      exact absurd hnumeric (by decide)

/-- Escapes that can be replaced leave no backslash over. -/
theorem backslashes_of_unescape (h : unescape cs = .ok text) : backslashes cs % 2 = 0 := by
  induction cs using unescape.induct generalizing text with
  | case1 => rfl
  | case2 => cases h
  | case3 c cs hnone =>
    rw [unescape, hnone] at h
    cases h
  | case4 c cs v hv ih =>
    rw [unescape, hv] at h
    obtain ⟨rest, hrest, -⟩ := map_eq_ok_iff.1 h
    have hpair : backslashes ['\x5c', c] % 2 = 0 := by
      by_cases hc : c = '\x5c'
      · rw [hc]
        decide
      · exact congrArg (· % 2) (backslashes_concat_of_ne hc ['\x5c'])
    exact (backslashes_append hpair cs).trans (ih hrest)
  | case5 c cs hlast hescape ih =>
    have hc : c ≠ '\x5c' := by
      rintro rfl
      cases cs with
      | nil => exact hlast rfl rfl
      | cons d cs => exact hescape d cs rfl rfl
    rw [unescape] at h
    · obtain ⟨rest, hrest, -⟩ := map_eq_ok_iff.1 h
      have hone : backslashes [c] % 2 = 0 := congrArg (· % 2) (backslashes_concat_of_ne hc [])
      exact (backslashes_append hone cs).trans (ih hrest)
    all_goals assumption

/-- The literal of a bare quote is the only character literal with a bare quote in it. -/
theorem bareQuote_character_iff (h : unescape inner = .ok [c]) :
    BareQuote '\x27' inner ↔ inner = ['\x27'] := by
  have hone : ∀ d, BareQuote '\x27' [d] ↔ d = '\x27' := by
    intro d
    rw [← List.nil_append [d], bareQuote_concat_iff, or_iff_right (not_bareQuote_nil _)]
    exact and_iff_left rfl
  rcases unescape_eq_singleton h with rfl | ⟨e, rfl, -⟩
  · rw [hone, List.singleton_inj]
  · -- the backslash is no quote, and it escapes the character behind it
    have hnot : ¬ BareQuote '\x27' (['\x5c'] ++ [e]) := by
      rw [bareQuote_concat_iff, hone]
      rintro (heq | ⟨-, heven⟩)
      · exact absurd heq (by decide)
      · exact absurd heven (by decide)
    exact iff_of_false hnot (by simp)

/-- **Literals end at bare quotes.**  The scan and the reader agree on where an accepted literal
ends exactly if there is no bare quote in it.  If there is one, the scan is outside of literals
behind the first, where the reader still takes text; among the characters this is so for the literal
of the quote alone. -/
theorem literals_end_at_bare_quotes (htrim : Text.trim x = x) (h : Accepts q x) :
    ∃ inner, x = q :: (inner ++ [q]) ∧
      (ClosesAtEnd q x ↔ ¬ BareQuote q inner) ∧
      (¬ BareQuote q inner → ∀ rest, stripComment (x ++ rest) = x ++ stripComment rest) ∧
      (BareQuote q inner → ∃ front back, inner = front ++ q :: back ∧
        ClosesAtEnd q (q :: (front ++ [q])) ∧
        ∀ rest, stripComment (x ++ rest) =
          q :: (front ++ [q]) ++ stripComment (back ++ q :: rest)) ∧
      (q = '\x27' → (BareQuote q inner ↔ x = quoteLiteral)) := by
  have hq := h.isQuote
  obtain ⟨inner, text, rfl, htext, hone⟩ := h.exists_inner htrim
  have heven := backslashes_of_unescape htext
  have hcloses : ClosesAtEnd q (q :: (inner ++ [q])) ↔ ¬ BareQuote q inner := by
    rw [closesAtEnd_iff hq, and_iff_left heven]
  refine ⟨inner, rfl, hcloses, ?_, ?_, ?_⟩
  · intro hbare rest
    exact (hcloses.2 hbare).stripComment_append hq rest
  · intro hbare
    obtain ⟨front, back, rfl, hfront, hfirst⟩ := hbare.first
    have hearly : ClosesAtEnd q (q :: (front ++ [q])) := (closesAtEnd_iff hq).2 ⟨hfirst, hfront⟩
    refine ⟨front, back, rfl, hearly, ?_⟩
    intro rest
    rw [← hearly.stripComment_append hq]
    simp
  · rintro rfl
    obtain ⟨c, rfl⟩ := hone rfl
    have hliteral : quoteLiteral = '\x27' :: (['\x27'] ++ ['\x27']) := rfl
    rw [bareQuote_character_iff htext, hliteral, List.cons_inj_right, List.append_left_inj]

/-- A quote behind three backslashes is escaped, so that the literal goes on to the next one and
the comment starts behind that.  A quote without any ends the literal too early. -/
theorem literals_end_at_bare_quotes_escaped :
    ClosesAtEnd '\x22' "\"\\\\\\\";\"".toList ∧
      stripComment "\"\\\\\\\";\" ; \"".toList = "\"\\\\\\\";\" ".toList ∧
      ¬ ClosesAtEnd '\x22' "\"a\"b\"".toList := by
  have hescaped : parseString "\"\\\\\\\";\"".toList = .ok "\\\";".toList := by rfl
  have hbare : parseString "\"a\"b\"".toList = .ok "a\"b".toList := by rfl
  obtain ⟨inner, heq, hcloses, hrest, -⟩ :=
    literals_end_at_bare_quotes (by decide) (.string hescaped)
  obtain ⟨inner', heq', hcloses', -⟩ :=
    literals_end_at_bare_quotes (by decide) (.string hbare)
  have hinner : inner = "\\\\\\\";".toList :=
    (List.append_inj' (List.cons.inj heq).2 rfl).1.symm
  have hinner' : inner' = "a\"b".toList :=
    (List.append_inj' (List.cons.inj heq').2 rfl).1.symm
  have hnone : ¬ BareQuote '\x22' inner := by
    rw [hinner]
    decide
  refine ⟨hcloses.2 hnone, hrest hnone " ; \"".toList, ?_⟩
  rw [hcloses', hinner', not_not]
  decide

/-- Literals that are accepted and end too early: a quote between letters in a string, and the quote
as a character. -/
theorem bare_quotes_are_accepted :
    (Text.trim "\"a\"b\"".toList = "\"a\"b\"".toList ∧ Accepts '\x22' "\"a\"b\"".toList ∧
        ¬ ClosesAtEnd '\x22' "\"a\"b\"".toList) ∧
      (Text.trim quoteLiteral = quoteLiteral ∧ Accepts '\x27' quoteLiteral ∧
        ¬ ClosesAtEnd '\x27' quoteLiteral) ∧
      assemble ".string \"a\"b\"" = .ok #[97, 34, 98] ∧
      parseString "\"a\";b\"".toList = .ok "a\";b".toList ∧
      assemble ".string \"a\";b\"" = .ok #[97] := by
  have hstring : parseString "\"a\"b\"".toList = .ok "a\"b".toList := by rfl
  have hcharacter : parseValue quoteLiteral = .ok 39 := by rfl
  have hstring_ends : ¬ ClosesAtEnd '\x22' ('\x22' :: (['a', '\x22', 'b'] ++ ['\x22'])) :=
    fun h => ((closesAtEnd_iff (.inl rfl)).1 h).1 (by decide)
  have hcharacter_ends : ¬ ClosesAtEnd '\x27' ('\x27' :: (['\x27'] ++ ['\x27'])) :=
    fun h => ((closesAtEnd_iff (.inr rfl)).1 h).1 (by decide)
  exact ⟨⟨by decide, .string hstring, hstring_ends⟩,
    ⟨by decide, .character rfl hcharacter, hcharacter_ends⟩,
    by decide +kernel, by rfl, by decide +kernel⟩

end Assembly

end TapeMachine
