import Mathlib
import TapeMachine.Proofs.Statements

/-!
# The grammar of source lines

What a line of source may look like, said without reference to the way it is read.

* `Assembly.IsIdentifier`, `Assembly.EqIgnoringCase`, `Assembly.Parted` and `Assembly.Pieces` are
  about names, names in any case, a name with an operand behind it, and lists with commas;
* `Assembly.Operand.Spelled`, `Assembly.Statement.Spelled` and `Assembly.LineSpelled` are the texts
  of operands, of statements and of lines without comment;
* reading a line finds exactly what it spells (`Assembly.Line.parse_eq_iff`).  In particular no text
  spells two different things: the labels in front are found by their colons, but a colon in an
  operand ends no label, because the operand's name in front of it is followed by white space.
-/

namespace TapeMachine

/-! ### White space -/

namespace Text

variable {cs gap gap' : List Char}

theorem trimStart_append (h : ∀ c ∈ gap, isBlank c = true) (cs : List Char) :
    trimStart (gap ++ cs) = trimStart cs := List.dropWhile_append_of_pos h

theorem trimEnd_append (h : ∀ c ∈ gap, isBlank c = true) (cs : List Char) :
    trimEnd (cs ++ gap) = trimEnd cs := by
  rw [trimEnd, List.reverse_append,
    List.dropWhile_append_of_pos fun c hc => h c (List.mem_reverse.1 hc), trimEnd]

/-- White space around a text is trimmed off. -/
theorem trim_append (h : ∀ c ∈ gap, isBlank c = true) (h' : ∀ c ∈ gap', isBlank c = true)
    (cs : List Char) : trim (gap ++ (cs ++ gap')) = trim cs := by
  rw [trim, trimStart_append h, trimStart, List.dropWhile_append]
  split
  · -- nothing is left of the text at all
    rename_i hempty
    rw [trim, trimStart, List.isEmpty_iff.1 hempty, List.dropWhile_eq_nil_iff.2 h']
  · exact trimEnd_append h' _

/-- Trimming takes white space off both ends and nothing else. -/
theorem exists_append_trim (cs : List Char) :
    ∃ gap', (∀ c ∈ gap', isBlank c = true) ∧ cs = cs.takeWhile isBlank ++ (trim cs ++ gap') := by
  refine ⟨((trimStart cs).reverse.takeWhile isBlank).reverse,
    fun c hc => List.mem_takeWhile_imp (List.mem_reverse.1 hc), ?_⟩
  rw [trim, trimEnd, ← List.reverse_append, List.takeWhile_append_dropWhile, List.reverse_reverse,
    trimStart, List.takeWhile_append_dropWhile]

theorem trim_trim (cs : List Char) : trim (trim cs) = trim cs := by
  obtain ⟨gap', h', hcs⟩ := exists_append_trim cs
  have h : ∀ c ∈ cs.takeWhile isBlank, isBlank c = true := fun c hc => List.mem_takeWhile_imp hc
  have htrim := trim_append h h' (trim cs)
  rwa [← hcs, eq_comm] at htrim

end Text

namespace Assembly

variable {cs ds name operand : List Char} {c : Char}

/-! ### Identifiers -/

/-- An ASCII letter or an underscore, and then ASCII letters, digits, underscores and dots. -/
inductive IsIdentifier : List Char → Prop
  | intro {c : Char} {rest : List Char} (hc : c.isAlpha = true ∨ c = '_')
      (hrest : ∀ d ∈ rest, d.isAlphanum = true ∨ d = '_' ∨ d = '.') : IsIdentifier (c :: rest)

theorem isIdentifier_iff : isIdentifier cs = true ↔ IsIdentifier cs := by
  cases cs with
  | nil =>
    refine iff_of_false (by decide) fun h => ?_
    cases h
  | cons c rest =>
    simp only [isIdentifier, isIdentifierStart, isIdentifierPart, Bool.and_eq_true,
      Bool.or_eq_true, decide_eq_true_eq, List.all_eq_true, or_assoc]
    constructor
    · rintro ⟨hc, hrest⟩
      exact .intro hc hrest
    · intro h
      cases h with
      | intro hc hrest => exact ⟨hc, hrest⟩

/-- Where the letters, digits and other characters of identifiers are. -/
theorem toNat_of_isIdentifierPart (h : c.isAlphanum = true ∨ c = '_' ∨ c = '.') :
    48 ≤ c.toNat ∧ c.toNat ≤ 57 ∨ 65 ≤ c.toNat ∧ c.toNat ≤ 90 ∨ 97 ≤ c.toNat ∧ c.toNat ≤ 122 ∨
      c.toNat = 95 ∨ c.toNat = 46 := by
  rcases h with h | rfl | rfl
  · simp only [Char.isAlphanum, Char.isAlpha, Char.isUpper, Char.isLower, Char.isDigit,
      Bool.or_eq_true, Bool.and_eq_true, decide_eq_true_eq, UInt32.le_iff_toNat_le] at h
    change (65 ≤ c.toNat ∧ c.toNat ≤ 90 ∨ 97 ≤ c.toNat ∧ c.toNat ≤ 122) ∨
      48 ≤ c.toNat ∧ c.toNat ≤ 57 at h
    omega
  · decide
  · decide

theorem IsIdentifier.part (h : IsIdentifier cs) (hc : c ∈ cs) :
    c.isAlphanum = true ∨ c = '_' ∨ c = '.' := by
  obtain ⟨hfirst, hrest⟩ := h
  rcases List.mem_cons.1 hc with rfl | hmem
  · rcases hfirst with halpha | hunderscore
    · exact .inl (by rw [Char.isAlphanum, halpha, Bool.true_or])
    · exact .inr (.inl hunderscore)
  · exact hrest c hmem

/-- Identifiers hold no white space and no colon. -/
theorem IsIdentifier.visible (h : IsIdentifier cs) (hc : c ∈ cs) :
    Text.isBlank c = false ∧ c ≠ ':' := by
  have hrange := toNat_of_isIdentifierPart (h.part hc)
  constructor
  · simp only [Text.isBlank, Text.inRanges, Text.blankRanges, List.any_cons, List.any_nil,
      Bool.or_false, Bool.or_eq_false_iff, Bool.and_eq_false_iff, decide_eq_false_iff_not]
    omega
  · rintro rfl
    revert hrange
    decide

theorem IsIdentifier.ne_nil (h : IsIdentifier cs) : cs ≠ [] := by
  rintro rfl
  cases h

theorem IsIdentifier.trim_eq (h : IsIdentifier cs) : Text.trim cs = cs :=
  Text.trim_of_ends (fun _ hc => (h.visible (List.mem_of_mem_head? hc)).1)
    fun _ hc => (h.visible (List.mem_of_getLast? hc)).1

theorem digitOf_of_isIdentifierStart (h : c.isAlpha = true ∨ c = '_') :
    Text.digitOf 10 c = none := by
  rcases h with halpha | rfl
  · unfold Text.digitOf Text.digitValue
    simp only [Char.isAlpha, Char.isUpper, Char.isLower, Bool.or_eq_true, Bool.and_eq_true,
      decide_eq_true_eq, UInt32.le_iff_toNat_le] at halpha
    change 65 ≤ c.toNat ∧ c.toNat ≤ 90 ∨ 97 ≤ c.toNat ∧ c.toNat ≤ 122 at halpha
    split_ifs with hdigit
    · obtain ⟨-, hle⟩ := hdigit
      have hnine : c.toNat ≤ '9'.toNat := hle
      change c.toNat ≤ 57 at hnine
      omega
    all_goals simp
  · decide

/-- An identifier is not a value as well. -/
theorem IsIdentifier.parseValue_ne_ok (h : IsIdentifier cs) (v : Word) : parseValue cs ≠ .ok v := by
  rw [parseValue, h.trim_eq]
  obtain ⟨hc, -⟩ := h
  rename_i c rest
  have hne : ∀ d : Char, d.isAlpha = false → d ≠ '_' → c ≠ d := by
    rintro d halpha hunderscore rfl
    rcases hc with hc | hc
    · cases halpha.symm.trans hc
    · exact hunderscore hc
  have hmagnitude : parseMagnitude (c :: rest) = none := by
    have hzero := hne '0' (by decide) (by decide)
    unfold parseMagnitude
    split
    · rename_i heq
      exact absurd (List.cons.inj heq).1 hzero
    · rename_i heq
      exact absurd (List.cons.inj heq).1 hzero
    · simp [Text.readNat, Text.readDigits, digitOf_of_isIdentifierStart hc]
  split
  · rename_i heq
    exact absurd (List.cons.inj heq).1 (hne '\x27' (by decide) (by decide))
  · unfold parseNumeral
    split
    rename_i heq
    split at heq
    · rename_i hminus
      exact absurd (List.cons.inj hminus).1 (hne '-' (by decide) (by decide))
    · cases heq
      simp [hmagnitude]

/-! ### Names in any case -/

/-- Two texts differ at most in the case of ASCII letters. -/
def EqIgnoringCase (cs ds : List Char) : Prop := cs.map Char.toLower = ds.map Char.toLower

variable {d : Char}

/-- Only letters have two cases. -/
theorem eq_of_toLower_eq (hd : d.isAlpha = false) (h : c.toLower = d) : c = d := by
  by_cases hupper : c.isUpper = true
  · have halpha := Char.isLower_toLower_eq_isAlpha c
    rw [h, Char.isAlpha, hupper, Bool.true_or] at halpha
    rw [Char.isAlpha, halpha, Bool.or_true] at hd
    cases hd
  · rwa [Char.toLower_eq_of_not_isUpper hupper] at h

theorem toLower_of_isAlpha_eq_false (hd : d.isAlpha = false) : d.toLower = d := by
  refine Char.toLower_eq_of_not_isUpper fun hupper => ?_
  rw [Char.isAlpha, hupper, Bool.true_or] at hd
  cases hd

namespace EqIgnoringCase

theorem mem_of_mem (h : EqIgnoringCase cs ds) (hd : d.isAlpha = false) (hmem : d ∈ cs) :
    d ∈ ds := by
  have hlower : d ∈ ds.map Char.toLower := by
    rw [← h]
    exact List.mem_map.2 ⟨d, hmem, toLower_of_isAlpha_eq_false hd⟩
  obtain ⟨e, he, heq⟩ := List.mem_map.1 hlower
  exact eq_of_toLower_eq hd heq ▸ he

theorem head?_eq (h : EqIgnoringCase cs ds) (hd : d.isAlpha = false) (hhead : cs.head? = some d) :
    ds.head? = some d := by
  have hmap : (ds.map Char.toLower).head? = some d := by
    rw [← h, List.head?_map, hhead, Option.map_some, toLower_of_isAlpha_eq_false hd]
  rw [List.head?_map, Option.map_eq_some_iff] at hmap
  obtain ⟨e, he, heq⟩ := hmap
  rw [he, eq_of_toLower_eq hd heq]

theorem symm (h : EqIgnoringCase cs ds) : EqIgnoringCase ds cs := Eq.symm h

theorem ne_nil (h : EqIgnoringCase cs ds) (hds : ds ≠ []) : cs ≠ [] := by
  rintro rfl
  exact hds (List.map_eq_nil_iff.1 h.symm)

end EqIgnoringCase

/-- A mnemonic is found in any case. -/
theorem ofMnemonic?_eq_some_iff {op : Opcode} :
    Opcode.ofMnemonic? name = some op ↔ EqIgnoringCase name op.mnemonic.toList := by
  have hall : (Opcode.all.all fun op =>
      op.mnemonic.toList.map Char.toUpper == op.mnemonic.toList) = true := by decide +kernel
  have hupper : op.mnemonic.toList.map Char.toUpper = op.mnemonic.toList :=
    beq_iff_eq.1 (List.all_eq_true.1 hall op op.mem_all)
  constructor
  · intro h
    have hfound := List.find?_some h
    rw [beq_iff_eq] at hfound
    rw [EqIgnoringCase, hfound, List.map_map]
    exact List.map_congr_left fun c _ => (Char.toLower_toUpper_eq_toLower c).symm
  · intro h
    have hname : name.map Char.toUpper = op.mnemonic.toList := by
      have hmap := congrArg (List.map Char.toUpper) h
      simp only [List.map_map, Function.comp_def, Char.toUpper_toLower_eq_toUpper] at hmap
      rw [hmap, hupper]
    have hself := (isWord_mnemonic op).2.2
    rwa [Opcode.ofMnemonic?, hupper, ← hname] at hself

/-! ### A name and its operand -/

/-- A text is a name, white space and an operand.  The name holds no white space, and none is at the
ends of the operand. -/
structure Parted (cs name operand : List Char) : Prop where
  visible : ∀ c ∈ name, Text.isBlank c = false
  trimmed : Text.trim operand = operand
  spread : ∃ gap gap', (∀ c ∈ gap, Text.isBlank c = true) ∧ (∀ c ∈ gap', Text.isBlank c = true) ∧
    (operand ≠ [] → gap ≠ []) ∧ cs = name ++ (gap ++ (operand ++ gap'))

/-- Every text is parted in one way, at its first white space. -/
theorem parted_iff :
    Parted cs name operand ↔
      name = cs.takeWhile (!Text.isBlank ·) ∧
        operand = Text.trim (cs.dropWhile (!Text.isBlank ·)) := by
  constructor
  · rintro ⟨hvisible, htrimmed, gap, gap', hgap, hgap', hne, rfl⟩
    have hname : ∀ c ∈ name, (!Text.isBlank c) = true := fun c hc => by rw [hvisible c hc]; rfl
    -- behind the name comes white space or nothing
    have hrest : ∀ c ∈ (gap ++ (operand ++ gap')).head?, Text.isBlank c = true := by
      intro c hc
      cases gap with
      | cons d gap =>
        cases hc
        exact hgap c List.mem_cons_self
      | nil =>
        have hnil : operand = [] := by
          by_contra hoperand
          exact hne hoperand rfl
        rw [hnil] at hc
        exact hgap' c (List.mem_of_mem_head? hc)
    rw [List.takeWhile_append_of_pos hname, List.dropWhile_append_of_pos hname]
    generalize hr : gap ++ (operand ++ gap') = rest at hrest
    have htrim : Text.trim rest = operand := by
      rw [← hr, Text.trim_append hgap hgap', htrimmed]
    cases rest with
    | nil => exact ⟨(List.append_nil _).symm, htrim.symm⟩
    | cons d rest =>
      simp [hrest d rfl, htrim]
  · rintro ⟨rfl, rfl⟩
    obtain ⟨gap', hgap', hcs⟩ := Text.exists_append_trim (cs.dropWhile (!Text.isBlank ·))
    refine ⟨fun c hc => by simpa using List.mem_takeWhile_imp hc, Text.trim_trim _,
      (cs.dropWhile (!Text.isBlank ·)).takeWhile Text.isBlank, gap',
      fun c hc => List.mem_takeWhile_imp hc, hgap', fun hne => ?_, ?_⟩
    · cases hrest : cs.dropWhile (!Text.isBlank ·) with
      | nil =>
        rw [hrest] at hne
        exact absurd rfl hne
      | cons d rest =>
        have hd := List.head?_dropWhile_not (!Text.isBlank ·) cs
        rw [hrest] at hd
        rw [List.takeWhile_cons_of_pos (by simpa using hd)]
        exact List.cons_ne_nil _ _
    · rw [← hcs, List.takeWhile_append_dropWhile]

/-! ### Lists -/

/-- The pieces of a text between its commas, every one of which separates two of them. -/
structure Pieces (cs : List Char) (pieces : List (List Char)) : Prop where
  ne_nil : pieces ≠ []
  comma_not_mem : ∀ piece ∈ pieces, ',' ∉ piece
  join_eq : [','].intercalate pieces = cs

theorem splitCommas_append (h : ',' ∉ ds) :
    splitCommas (ds ++ ',' :: cs) = ds :: splitCommas cs := by
  induction ds with
  | nil => simp [splitCommas]
  | cons d ds ih =>
    have hd : d ≠ ',' := fun h' => h (h' ▸ List.mem_cons_self)
    rw [List.cons_append, splitCommas, if_neg hd, ih fun h' => h (List.mem_cons_of_mem _ h')]

theorem pieces_splitCommas (cs : List Char) : Pieces cs (splitCommas cs) := by
  induction cs with
  | nil => exact ⟨List.cons_ne_nil _ _, by simp [splitCommas], rfl⟩
  | cons c cs ih =>
    obtain ⟨hne, hcomma, hjoin⟩ := ih
    obtain ⟨piece, pieces, hpieces⟩ := List.exists_cons_of_ne_nil hne
    rw [hpieces] at hcomma hjoin
    rw [splitCommas]
    split
    · -- a comma: an empty piece comes before the others
      rename_i hc
      rw [hpieces]
      refine ⟨List.cons_ne_nil _ _, ?_, ?_⟩
      · intro p hp
        rcases List.mem_cons.1 hp with rfl | hp
        · exact List.not_mem_nil
        · exact hcomma p hp
      · rw [List.intercalate_cons_cons, hjoin, hc]
        rfl
    · rename_i hc
      rw [hpieces]
      refine ⟨List.cons_ne_nil _ _, ?_, ?_⟩
      · intro p hp
        rcases List.mem_cons.1 hp with rfl | hp
        · rw [List.mem_cons, not_or]
          exact ⟨Ne.symm hc, hcomma piece List.mem_cons_self⟩
        · exact hcomma p (List.mem_cons_of_mem _ hp)
      · rw [← hjoin]
        cases pieces with
        | nil => rw [List.intercalate_singleton, List.intercalate_singleton]
        | cons q qs => rw [List.intercalate_cons_cons, List.intercalate_cons_cons]; rfl

/-- A text has one list of pieces. -/
theorem pieces_iff {pieces : List (List Char)} : Pieces cs pieces ↔ pieces = splitCommas cs := by
  constructor
  · intro h
    induction pieces generalizing cs with
    | nil => exact absurd rfl h.ne_nil
    | cons piece pieces ih =>
      obtain ⟨-, hcomma, rfl⟩ := h
      have hpiece := hcomma piece List.mem_cons_self
      cases pieces with
      | nil => rw [List.intercalate_singleton, splitCommas_of_not_mem hpiece]
      | cons q qs =>
        have hrest := ih
          ⟨List.cons_ne_nil q qs, fun p hp => hcomma p (List.mem_cons_of_mem _ hp), rfl⟩
        rw [List.intercalate_cons_cons, List.append_assoc, List.singleton_append,
          splitCommas_append hpiece, ← hrest]
  · rintro rfl
    exact pieces_splitCommas cs

/-! ### Reading step by step -/

section

variable {ε α β : Type} {xs : List α} {ys : List β}

theorem bind_eq_ok_iff {x : Except ε α} {f : α → Except ε β} {b : β} :
    (x >>= f) = .ok b ↔ ∃ a, x = .ok a ∧ f a = .ok b := by
  cases x with
  | error e =>
    refine iff_of_false (fun h => by cases h) ?_
    rintro ⟨a, h, -⟩
    cases h
  | ok a =>
    refine ⟨fun h => ⟨a, rfl, h⟩, ?_⟩
    rintro ⟨a', h, hb⟩
    cases h
    exact hb

theorem map_eq_ok_iff {x : Except ε α} {f : α → β} {b : β} :
    x.map f = .ok b ↔ ∃ a, x = .ok a ∧ f a = b := by
  cases x with
  | error e =>
    refine iff_of_false (fun h => by cases h) ?_
    rintro ⟨a, h, -⟩
    cases h
  | ok a => simp [Except.map]

theorem mapM_eq_ok_iff {f : α → Except ε β} :
    xs.mapM f = .ok ys ↔ List.Forall₂ (fun y x => f x = .ok y) ys xs := by
  induction xs generalizing ys with
  | nil =>
    rw [List.mapM_nil, List.forall₂_nil_right_iff]
    exact ⟨fun h => (Except.ok.inj h).symm, fun h => congrArg Except.ok h.symm⟩
  | cons x xs ih =>
    rw [List.mapM_cons, List.forall₂_cons_right_iff, bind_eq_ok_iff]
    refine ⟨?_, ?_⟩
    · rintro ⟨y, hy, h⟩
      obtain ⟨ys', hys', h⟩ := bind_eq_ok_iff.1 h
      exact ⟨y, ys', hy, ih.1 hys', (Except.ok.inj h).symm⟩
    · rintro ⟨y, ys', hy, hys', rfl⟩
      exact ⟨y, hy, bind_eq_ok_iff.2 ⟨ys', ih.2 hys', rfl⟩⟩

theorem exists_of_mem_of_forall₂ {R : β → α → Prop} (h : List.Forall₂ R ys xs) {x : α}
    (hx : x ∈ xs) : ∃ y, R y x := by
  induction h with
  | nil => cases hx
  | cons hyx _ ih =>
    rcases List.mem_cons.1 hx with rfl | hmem
    · exact ⟨_, hyx⟩
    · exact ih hmem

/-- The items of a list are read one by one, trimmed.  That none may be empty goes without saying if
nothing is no item. -/
theorem parseItems_bind_mapM_eq_ok_iff (f : List Char → Except Problem β)
    (R : β → List Char → Prop) (hf : ∀ item y, f item = .ok y ↔ R y item)
    (hnil : ∀ y, f [] ≠ .ok y) (cs : List Char) (ys : List β) :
    (parseItems cs >>= fun items => items.mapM f) = .ok ys ↔
      List.Forall₂ R ys ((splitCommas cs).map Text.trim) := by
  have hread : (fun y item => f item = .ok y) = R := by
    funext y item
    exact propext (hf item y)
  rw [← hread, ← mapM_eq_ok_iff, parseItems]
  split
  · rename_i hempty
    refine iff_of_false (fun h => by cases h) fun h => ?_
    obtain ⟨item, hitem, hempty⟩ := List.any_eq_true.1 hempty
    obtain ⟨y, hy⟩ := exists_of_mem_of_forall₂ (mapM_eq_ok_iff.1 h) hitem
    rw [List.isEmpty_iff.1 hempty] at hy
    exact hnil y hy
  · exact Iff.rfl

end

/-! ### Operands and statements -/

/-- The texts that spell an operand: identifiers, and whatever is a value. -/
inductive Operand.Spelled : Operand → List Char → Prop
  | label {cs : List Char} (h : IsIdentifier cs) : Spelled (.label (String.ofList cs)) cs
  | value {cs : List Char} {v : Word} (h : parseValue cs = .ok v) : Spelled (.value v) cs

/-- The texts that spell a byte: values from -128 to 255. -/
def ByteSpelled (b : UInt8) (cs : List Char) : Prop :=
  ∃ v, parseValue cs = .ok v ∧ -128 ≤ v.toInt ∧ v.toInt ≤ 255 ∧ b = UInt8.ofInt v.toInt

/-- The names and operands that spell a statement. -/
inductive Statement.Spelled : Statement → List Char → List Char → Prop
  /-- A mnemonic alone. -/
  | plain {op : Opcode} {name : List Char} (hname : EqIgnoringCase name op.mnemonic.toList)
      (hop : op.hasImmediate = false) : Spelled (.plain op) name []
  /-- A mnemonic and an operand. -/
  | immediate {op : Opcode} {x : Operand} {name operand : List Char}
      (hname : EqIgnoringCase name op.mnemonic.toList) (hop : op.hasImmediate = true)
      (hx : x.Spelled operand) : Spelled (.immediate op x) name operand
  /-- `.org` and an address. -/
  | origin {v : Word} {name operand : List Char} (hname : EqIgnoringCase name ".org".toList)
      (hv : parseValue operand = .ok v) (hpos : 0 ≤ v.toInt) :
      Spelled (.origin v.toInt.toNat) name operand
  /-- `.word` and a list of operands. -/
  | words {xs : List Operand} {name operand : List Char} {pieces : List (List Char)}
      (hname : EqIgnoringCase name ".word".toList) (hpieces : Pieces operand pieces)
      (hxs : List.Forall₂ Operand.Spelled xs (pieces.map Text.trim)) :
      Spelled (.words xs) name operand
  /-- `.byte` and a list of bytes. -/
  | bytes {data : List UInt8} {name operand : List Char} {pieces : List (List Char)}
      (hname : EqIgnoringCase name ".byte".toList) (hpieces : Pieces operand pieces)
      (hdata : List.Forall₂ ByteSpelled data (pieces.map Text.trim)) :
      Spelled (.bytes data) name operand
  /-- `.string` and a text in quotes. -/
  | string {text name operand : List Char} (hname : EqIgnoringCase name ".string".toList)
      (htext : parseString operand = .ok text) :
      Spelled (.string (String.ofList text)) name operand

theorem Operand.parse_eq_ok_iff {x : Operand} : Operand.parse cs = .ok x ↔ x.Spelled cs := by
  rw [Operand.parse]
  split
  · rename_i h
    have hid := isIdentifier_iff.1 h
    constructor
    · intro hx
      cases hx
      exact .label hid
    · rintro (_ | hv)
      · rfl
      · exact absurd hv (hid.parseValue_ne_ok _)
  · rename_i h
    rw [map_eq_ok_iff]
    constructor
    · rintro ⟨v, hv, rfl⟩
      exact .value hv
    · rintro (hid | hv)
      · exact absurd (isIdentifier_iff.2 hid) h
      · exact ⟨_, hv, rfl⟩

theorem parseByte_eq_ok_iff {b : UInt8} : parseByte cs = .ok b ↔ ByteSpelled b cs := by
  rw [parseByte, bind_eq_ok_iff]
  refine exists_congr fun v => and_congr_right fun _ => ?_
  split
  · rename_i h
    exact ⟨fun hb => ⟨h.1, h.2, (Except.ok.inj hb).symm⟩, fun hb => congrArg Except.ok hb.2.2.symm⟩
  · rename_i h
    exact iff_of_false (fun hb => by cases hb) fun hb => h ⟨hb.1, hb.2.1⟩

theorem Operand.parse_nil_ne_ok (x : Operand) : Operand.parse [] ≠ .ok x := by
  rintro ⟨⟩

theorem parseByte_nil_ne_ok (b : UInt8) : parseByte [] ≠ .ok b := by
  rintro ⟨⟩

theorem parseInstruction_eq_ok_iff {s : Statement} (hdot : name.head? ≠ some '.') :
    parseInstruction name operand = .ok s ↔ s.Spelled name operand := by
  constructor
  · intro h
    unfold parseInstruction at h
    split at h
    · cases h
    · rename_i op hop
      have hname := ofMnemonic?_eq_some_iff.1 hop
      split_ifs at h with himmediate hempty hempty
      · obtain ⟨x, hx, rfl⟩ := map_eq_ok_iff.1 h
        exact .immediate hname himmediate (Operand.parse_eq_ok_iff.1 hx)
      · cases h
        rw [List.isEmpty_iff.1 hempty]
        exact .plain hname (Bool.eq_false_iff.2 himmediate)
  · intro h
    -- the name of a directive starts with a dot
    have hdirective : ∀ {ds : List Char}, EqIgnoringCase name ds → ds.head? = some '.' → False :=
      fun hname hds => hdot (hname.symm.head?_eq (by decide) hds)
    cases h with
    | plain hname hop =>
      rw [parseInstruction, ofMnemonic?_eq_some_iff.2 hname]
      simp [hop]
    | immediate hname hop hx =>
      have hparse := Operand.parse_eq_ok_iff.2 hx
      have hne : operand.isEmpty = false := by
        rw [List.isEmpty_eq_false_iff]
        rintro rfl
        exact Operand.parse_nil_ne_ok _ hparse
      rw [parseInstruction, ofMnemonic?_eq_some_iff.2 hname]
      simp only [hop, hne, hparse, if_true, Bool.false_eq_true, if_false]
      rfl
    | origin hname => exact absurd rfl (hdirective hname)
    | words hname => exact absurd rfl (hdirective hname)
    | bytes hname => exact absurd rfl (hdirective hname)
    | string hname => exact absurd rfl (hdirective hname)

/-- A directive is found in any case. -/
theorem ofList_map_toLower_eq_iff (name : List Char) (directive : String)
    (h : directive.toList.map Char.toLower = directive.toList) :
    String.ofList (name.map Char.toLower) = directive ↔
      EqIgnoringCase ('.' :: name) ('.' :: directive.toList) := by
  rw [EqIgnoringCase, List.map_cons, List.map_cons, List.cons_inj_right, h]
  constructor
  · rintro rfl
    rw [String.toList_ofList]
  · intro hname
    rw [hname, String.ofList_toList]

theorem parseDirective_eq_ok_iff {s : Statement} :
    parseDirective name operand = .ok s ↔ s.Spelled ('.' :: name) operand := by
  have horg := ofList_map_toLower_eq_iff name "org" (by decide)
  have hword := ofList_map_toLower_eq_iff name "word" (by decide)
  have hbyte := ofList_map_toLower_eq_iff name "byte" (by decide)
  have hstring := ofList_map_toLower_eq_iff name "string" (by decide)
  have hwords := parseItems_bind_mapM_eq_ok_iff Operand.parse Operand.Spelled
    (fun _ _ => Operand.parse_eq_ok_iff) Operand.parse_nil_ne_ok operand
  have hbytes := parseItems_bind_mapM_eq_ok_iff parseByte ByteSpelled
    (fun _ _ => parseByte_eq_ok_iff) parseByte_nil_ne_ok operand
  constructor
  · intro h
    simp only [parseDirective] at h
    split_ifs at h with hname hname hname hname
    · obtain ⟨v, hv, h⟩ := bind_eq_ok_iff.1 h
      split_ifs at h with hneg
      cases h
      rw [Int32.lt_iff_toInt_lt, Int32.toInt_zero] at hneg
      exact .origin (horg.1 hname) hv (Int.not_lt.1 hneg)
    · obtain ⟨items, hitems, h⟩ := bind_eq_ok_iff.1 h
      obtain ⟨xs, hxs, h⟩ := bind_eq_ok_iff.1 h
      cases h
      exact .words (hword.1 hname) (pieces_splitCommas _)
        ((hwords xs).1 (bind_eq_ok_iff.2 ⟨items, hitems, hxs⟩))
    · obtain ⟨items, hitems, h⟩ := bind_eq_ok_iff.1 h
      obtain ⟨data, hdata, h⟩ := bind_eq_ok_iff.1 h
      cases h
      exact .bytes (hbyte.1 hname) (pieces_splitCommas _)
        ((hbytes data).1 (bind_eq_ok_iff.2 ⟨items, hitems, hdata⟩))
    · obtain ⟨text, htext, h⟩ := bind_eq_ok_iff.1 h
      cases h
      exact .string (hstring.1 hname) htext
  · intro h
    have hmnemonic : ∀ {op : Opcode}, ¬ EqIgnoringCase ('.' :: name) op.mnemonic.toList :=
      fun {op} hname => (isWord_mnemonic op).2.1 (hname.head?_eq (by decide) rfl)
    cases h with
    | plain hname => exact absurd hname hmnemonic
    | immediate hname => exact absurd hname hmnemonic
    | origin hname hv hpos =>
      rename_i v
      have hneg : ¬ v < 0 := by
        rw [Int32.lt_iff_toInt_lt, Int32.toInt_zero]
        exact Int.not_lt.2 hpos
      rw [parseDirective, horg.2 hname]
      exact bind_eq_ok_iff.2 ⟨v, hv, if_neg hneg⟩
    | words hname hpieces hxs =>
      rw [pieces_iff.1 hpieces] at hxs
      obtain ⟨items, hitems, hmap⟩ := bind_eq_ok_iff.1 ((hwords _).2 hxs)
      rw [parseDirective, hword.2 hname]
      exact bind_eq_ok_iff.2 ⟨items, hitems, bind_eq_ok_iff.2 ⟨_, hmap, rfl⟩⟩
    | bytes hname hpieces hdata =>
      rw [pieces_iff.1 hpieces] at hdata
      obtain ⟨items, hitems, hmap⟩ := bind_eq_ok_iff.1 ((hbytes _).2 hdata)
      rw [parseDirective, hbyte.2 hname]
      exact bind_eq_ok_iff.2 ⟨items, hitems, bind_eq_ok_iff.2 ⟨_, hmap, rfl⟩⟩
    | string hname htext =>
      rw [parseDirective, hstring.2 hname]
      exact bind_eq_ok_iff.2 ⟨_, htext, rfl⟩

theorem parseStatement_eq_ok_iff {s : Statement} :
    parseStatement cs = .ok s ↔
      ∃ name operand, Parted cs name operand ∧ s.Spelled name operand := by
  have hparts : (∃ name operand, Parted cs name operand ∧ s.Spelled name operand) ↔
      s.Spelled (cs.takeWhile (!Text.isBlank ·))
        (Text.trim (cs.dropWhile (!Text.isBlank ·))) := by
    constructor
    · rintro ⟨name, operand, hparted, hs⟩
      obtain ⟨rfl, rfl⟩ := parted_iff.1 hparted
      exact hs
    · intro hs
      exact ⟨_, _, parted_iff.2 ⟨rfl, rfl⟩, hs⟩
  rw [hparts]
  simp only [parseStatement]
  split
  · rename_i directive hname
    rw [parseDirective_eq_ok_iff, hname]
  · rename_i hname
    refine parseInstruction_eq_ok_iff fun hdot => ?_
    obtain ⟨directive, hcons⟩ := List.head?_eq_some_iff.1 hdot
    exact hname directive hcons

/-! ### Lines -/

/-- The texts that spell labels and possibly a statement. -/
inductive LineSpelled : List Char → List String → Option Statement → Prop
  /-- An empty line. -/
  | empty : LineSpelled [] [] none
  /-- A statement without labels. -/
  | statement {cs name operand : List Char} {s : Statement} (hparted : Parted cs name operand)
      (hs : s.Spelled name operand) : LineSpelled cs [] (some s)
  /-- One more label in front. -/
  | label {name gap rest : List Char} {labels : List String} {statement : Option Statement}
      (hname : IsIdentifier name) (hgap : ∀ c ∈ gap, Text.isBlank c = true)
      (hrest : LineSpelled rest labels statement) :
      LineSpelled (name ++ ':' :: (gap ++ rest)) (String.ofList name :: labels) statement

/-- The name of a statement is not empty and holds no colon. -/
theorem Statement.Spelled.name_plain {s : Statement} (h : s.Spelled name operand) :
    name ≠ [] ∧ ':' ∉ name := by
  have hplain : ∀ {ds : List Char}, EqIgnoringCase name ds → ds ≠ [] → ':' ∉ ds →
      name ≠ [] ∧ ':' ∉ name := fun hname hne hcolon =>
    ⟨hname.ne_nil hne, fun hmem => hcolon (hname.mem_of_mem (by decide) hmem)⟩
  have hmnemonic : ∀ {op : Opcode}, EqIgnoringCase name op.mnemonic.toList →
      name ≠ [] ∧ ':' ∉ name := by
    intro op hname
    obtain ⟨hword, -, -⟩ := isWord_mnemonic op
    refine hplain hname hword.ne_nil fun hmem => ?_
    cases hword.plain ':' hmem
  cases h with
  | plain hname => exact hmnemonic hname
  | immediate hname => exact hmnemonic hname
  | origin hname => exact hplain hname (by decide) (by decide)
  | words hname => exact hplain hname (by decide) (by decide)
  | bytes hname => exact hplain hname (by decide) (by decide)
  | string hname => exact hplain hname (by decide) (by decide)

theorem splitColon_append {rest : List Char} (h : ':' ∉ name) :
    splitColon (name ++ ':' :: rest) = some (name, rest) := by
  induction name with
  | nil => simp [splitColon]
  | cons c name ih =>
    have hc : c ≠ ':' := fun h' => h (h' ▸ List.mem_cons_self)
    rw [List.cons_append, splitColon, if_neg hc, ih fun h' => h (List.mem_cons_of_mem _ h'),
      Option.map_some]

theorem eq_append_of_splitColon {rest : List Char} (h : splitColon cs = some (name, rest)) :
    cs = name ++ ':' :: rest := by
  induction cs generalizing name with
  | nil => cases h
  | cons c cs ih =>
    rw [splitColon] at h
    split_ifs at h with hc
    · cases h
      rw [hc, List.nil_append]
    · obtain ⟨⟨name', rest'⟩, hsplit, heq⟩ := Option.map_eq_some_iff.1 h
      cases heq
      rw [ih hsplit, List.cons_append]

theorem splitLabels_append {gap rest : List Char} (hname : IsIdentifier name)
    (hgap : ∀ c ∈ gap, Text.isBlank c = true) (hrest : ∀ c ∈ rest.head?, Text.isBlank c = false) :
    splitLabels (name ++ ':' :: (gap ++ rest)) =
      (String.ofList name :: (splitLabels rest).1, (splitLabels rest).2) := by
  have hcolon : ':' ∉ name := fun hmem => (hname.visible hmem).2 rfl
  have hsplit : splitColon (name ++ ':' :: (gap ++ rest)) = some (name, gap ++ rest) :=
    splitColon_append hcolon
  rw [splitLabels]
  split
  · rename_i hnone
    cases hnone.symm.trans hsplit
  · rename_i heq
    cases heq.symm.trans hsplit
    rw [if_pos (isIdentifier_iff.2 hname), Text.trimStart_append hgap,
      Text.trimStart_of_head? hrest]

/-- A colon in a statement ends no label: there is white space before it. -/
theorem splitLabels_of_parted {s : Statement} (hparted : Parted cs name operand)
    (hs : s.Spelled name operand) : splitLabels cs = ([], cs) := by
  obtain ⟨rfl, -⟩ := parted_iff.1 hparted
  rw [splitLabels]
  split
  · rfl
  · rename_i label rest hsplit
    split
    · rename_i hlabel
      have hid := isIdentifier_iff.1 hlabel
      refine absurd ?_ hs.name_plain.2
      rw [eq_append_of_splitColon hsplit, List.takeWhile_append_of_pos fun c hc => by
        rw [(hid.visible hc).1, Bool.not_false], List.takeWhile_cons_of_pos (by decide)]
      exact List.mem_append_right _ List.mem_cons_self
    · rfl

theorem LineSpelled.head?_visible {labels : List String} {statement : Option Statement}
    (h : LineSpelled cs labels statement) (hc : c ∈ cs.head?) : Text.isBlank c = false := by
  cases h with
  | empty => cases hc
  | statement hparted hs =>
    obtain ⟨hvisible, -, gap, gap', -, -, -, rfl⟩ := hparted
    rw [List.head?_append_of_ne_nil _ hs.name_plain.1] at hc
    exact hvisible c (List.mem_of_mem_head? hc)
  | label hname =>
    rw [List.head?_append_of_ne_nil _ hname.ne_nil] at hc
    exact (hname.visible (List.mem_of_mem_head? hc)).1

/-- The statement behind the labels, if there is one. -/
def parseBody (rest : List Char) : Except Problem (Option Statement) :=
  if rest.isEmpty then .ok none else (parseStatement rest).map some

theorem lineSpelled_nil_iff {statement : Option Statement} :
    LineSpelled cs [] statement ↔ parseBody cs = .ok statement := by
  constructor
  · intro h
    cases h with
    | empty => rfl
    | statement hparted hs =>
      have hparse := parseStatement_eq_ok_iff.2 ⟨_, _, hparted, hs⟩
      have hne : cs.isEmpty = false := by
        rw [List.isEmpty_eq_false_iff]
        rintro rfl
        cases hparse
      rw [parseBody, hne, hparse]
      rfl
  · intro h
    unfold parseBody at h
    split_ifs at h with hempty
    · cases h
      rw [List.isEmpty_iff.1 hempty]
      exact .empty
    · obtain ⟨s, hs, rfl⟩ := map_eq_ok_iff.1 h
      obtain ⟨name, operand, hparted, hspelled⟩ := parseStatement_eq_ok_iff.1 hs
      exact .statement hparted hspelled

/-- The labels in front of a line, and what is behind them, are found as they are spelled. -/
theorem lineSpelled_iff {labels : List String} {statement : Option Statement} :
    LineSpelled cs labels statement ↔
      (splitLabels cs).1 = labels ∧ parseBody (splitLabels cs).2 = .ok statement := by
  constructor
  · intro h
    induction h with
    | empty =>
      rw [splitLabels_of_not_mem List.not_mem_nil]
      exact ⟨rfl, rfl⟩
    | statement hparted hs =>
      rw [splitLabels_of_parted hparted hs]
      exact ⟨rfl, lineSpelled_nil_iff.1 (.statement hparted hs)⟩
    | label hname hgap hrest ih =>
      rw [splitLabels_append hname hgap fun c => hrest.head?_visible]
      exact ⟨congrArg _ ih.1, ih.2⟩
  · rintro ⟨rfl, hbody⟩
    fun_induction splitLabels cs with
    | case1 cs => exact lineSpelled_nil_iff.2 hbody
    | case2 cs name rest hsplit hshort hid names body hrest ih =>
      rw [hrest] at ih
      have hgap : rest = rest.takeWhile Text.isBlank ++ Text.trimStart rest :=
        List.takeWhile_append_dropWhile.symm
      rw [eq_append_of_splitColon hsplit, hgap]
      exact .label (isIdentifier_iff.1 hid) (fun c hc => List.mem_takeWhile_imp hc) (ih hbody)
    | case3 cs => exact lineSpelled_nil_iff.2 hbody

/-- A line of source that says something: its labels and its statement, if it has one. -/
structure SourceLine where
  /-- The labels in front. -/
  labels : List String
  /-- The statement. -/
  statement : Option Statement
  deriving DecidableEq, Repr

/-- The texts that spell a line: without its comment and the white space around it. -/
def SourceLine.Spelled (l : SourceLine) (cs : List Char) : Prop :=
  LineSpelled (Text.trim (stripComment cs)) l.labels l.statement

/-- A line is read without complaint exactly if it is spelled by the grammar, and then as what it
spells. -/
theorem Line.parse_eq_iff {l : SourceLine} :
    Line.parse cs = ⟨l.labels, .ok l.statement⟩ ↔ l.Spelled cs := by
  rw [SourceLine.Spelled, lineSpelled_iff, Line.parse, Line.mk.injEq]
  rfl

end Assembly

end TapeMachine
