import TapeMachine.Assembly.Source
import TapeMachine.Proofs.Calls
import TapeMachine.Proofs.Grammar

/-!
# Programs

A program is a list of source lines, each of which is spelled by the grammar.  It has labels
(`Assembly.labelsOf`) at addresses (`Assembly.addressesOf`), and its operands use labels
(`Assembly.usesOf`).

Taking in the lines of a text is making the calls of the program it spells
(`Assembly.callsOf`): this succeeds exactly if there is such a program and no label of it is bound
twice (`Assembly.Draft.lines_eq_ok_iff`), and what comes of it is the draft of that program
(`Assembly.Draft.ofProgram`).  So a text is assembled exactly if it spells a program whose labels
are bound once, and are there and in reach where they are used
(`Assembly.assemble_accepts_grammar`).
-/

namespace TapeMachine

namespace Assembly

/-! ### Labels and their addresses -/

/-- The labels that the operand of a line uses. -/
def SourceLine.uses (l : SourceLine) : List String := l.statement.elim [] Statement.labels

/-- The labels of a program. -/
def labelsOf (program : List SourceLine) : List String := program.flatMap SourceLine.labels

/-- The labels that the operands of a program use, with the numbers of their lines, the first of
which is `n`. -/
def usesFrom (n : Nat) : List SourceLine → List (String × Nat)
  | [] => []
  | l :: program => l.uses.map (·, n) ++ usesFrom (n + 1) program

/-- The labels that the operands of a program use, with the numbers of their lines. -/
def usesOf (program : List SourceLine) : List (String × Nat) := usesFrom 1 program

/-- The address behind a statement at `address`. -/
def Statement.next (address : Nat) : Statement → Nat
  | plain _ => address + 1
  | immediate _ _ => address + 5
  | origin target => target
  | words xs => address + 4 * xs.length
  | bytes data => address + data.length
  | string text => address + (Utf8.encode text.toList).length

/-- The labels of a program with their addresses, if it starts at `address`. -/
def addressesFrom (address : Nat) : List SourceLine → List (String × Nat)
  | [] => []
  | l :: program =>
    l.labels.map (·, address) ++
      addressesFrom (l.statement.elim address (Statement.next address)) program

/-- The labels of a program with their addresses. -/
def addressesOf (program : List SourceLine) : List (String × Nat) := addressesFrom 0 program

variable {b b' : Builder} {l : SourceLine} {s : Statement} {x : Operand}
  {before program : List SourceLine} {names : List String} {name : String} {n k : Nat}

theorem map_fst_addressesFrom (address : Nat) (program : List SourceLine) :
    (addressesFrom address program).map Prod.fst = labelsOf program := by
  induction program generalizing address with
  | nil => rfl
  | cons l program ih =>
    rw [addressesFrom, List.map_append, ih, List.map_map]
    simp [labelsOf, Function.comp_def]

theorem labelsOf_concat (before : List SourceLine) (l : SourceLine) :
    labelsOf (before ++ [l]) = labelsOf before ++ l.labels := by
  simp [labelsOf]

theorem usesFrom_append (n : Nat) (before program : List SourceLine) :
    usesFrom n (before ++ program) = usesFrom n before ++ usesFrom (n + before.length) program := by
  induction before generalizing n with
  | nil => rfl
  | cons l before ih =>
    rw [List.cons_append, usesFrom, usesFrom, ih, List.append_assoc, List.length_cons,
      Nat.add_right_comm n 1, Nat.add_assoc n]

theorem bounds_of_mem_usesFrom (h : (name, k) ∈ usesFrom n program) :
    n ≤ k ∧ k < n + program.length := by
  induction program generalizing n with
  | nil => cases h
  | cons l program ih =>
    rw [List.length_cons]
    rcases List.mem_append.1 h with hmem | hmem
    · obtain ⟨use, -, heq⟩ := List.mem_map.1 hmem
      cases heq
      omega
    · have := ih hmem
      omega

/-! ### The calls of a program -/

/-- The call that emits an operand. -/
def Operand.call : Operand → Call
  | label name => .wordLabel name
  | value v => .word v

/-- The calls that emit a statement. -/
def Statement.calls : Statement → List Call
  | plain op => [.op op]
  | immediate op x => [.op op, x.call]
  | origin address => [.seek address]
  | words xs => xs.map Operand.call
  | bytes data => data.map .byte
  | string text => [.string text]

/-- The calls that take in a line. -/
def SourceLine.calls (l : SourceLine) : List Call :=
  l.labels.map .label ++ l.statement.elim [] Statement.calls

/-- The calls that take in a program. -/
def callsOf (program : List SourceLine) : List Call := program.flatMap SourceLine.calls

theorem Operand.emit_eq (b : Builder) (x : Operand) : x.emit b = x.call.perform b := by
  cases x <;> rfl

theorem Statement.emit_eq (b : Builder) (s : Statement) :
    s.emit b = s.calls.foldl Call.perform b := by
  cases s with
  | immediate op x => exact x.emit_eq _
  | words xs =>
    rw [calls, List.foldl_map]
    exact congrArg (fun f => xs.foldl f b) (funext fun b => funext fun x => x.emit_eq b)
  | bytes data => rw [calls, List.foldl_map]; rfl
  | plain | origin | string => rfl

theorem Statement.foldl_moves_calls (address : Nat) (s : Statement) :
    s.calls.foldl Call.moves address = s.next address := by
  cases s with
  | immediate op x => cases x <;> rfl
  | words xs =>
    rw [calls, next]
    induction xs generalizing address with
    | nil => rfl
    | cons x xs ih =>
      have hx : x.call.moves address = address + 4 := by cases x <;> rfl
      rw [List.map_cons, List.foldl_cons, hx, ih, List.length_cons]
      omega
  | bytes data =>
    rw [calls, next]
    induction data generalizing address with
    | nil => rfl
    | cons b data ih =>
      rw [List.map_cons, List.foldl_cons, ih, List.length_cons, Call.moves]
      omega
  | plain | origin | string => rfl

/-- Where the calls of a line leave the cursor. -/
theorem SourceLine.foldl_moves_calls (address : Nat) (l : SourceLine) :
    l.calls.foldl Call.moves address = l.statement.elim address (Statement.next address) := by
  have hlabels : (l.labels.map Call.label).foldl Call.moves address = address := by
    induction l.labels with
    | nil => rfl
    | cons name names ih => exact ih
  rw [calls, List.foldl_append, hlabels]
  cases l.statement with
  | none => rfl
  | some s => exact s.foldl_moves_calls address

theorem recordFrom_eq_nil {α : Type} {f : Nat → Call → List α} {calls : List Call}
    (h : ∀ call ∈ calls, ∀ cursor, f cursor call = []) (cursor : Nat) :
    recordFrom f cursor calls = [] := by
  induction calls generalizing cursor with
  | nil => rfl
  | cons call calls ih =>
    rw [recordFrom, h call List.mem_cons_self,
      ih fun call' hcall' => h call' (List.mem_cons_of_mem _ hcall'), List.append_nil]

theorem Operand.bindings_call (cursor : Nat) (x : Operand) : x.call.bindings cursor = [] := by
  cases x <;> rfl

/-- A statement binds no labels. -/
theorem Statement.bindings_calls {call : Call} (h : call ∈ s.calls) (cursor : Nat) :
    call.bindings cursor = [] := by
  cases s with
  | plain | origin | string => cases List.mem_singleton.1 h; rfl
  | immediate op x =>
    rcases List.mem_cons.1 h with rfl | h
    · rfl
    · cases List.mem_singleton.1 h
      exact x.bindings_call cursor
  | words xs =>
    obtain ⟨x, -, rfl⟩ := List.mem_map.1 h
    exact x.bindings_call cursor
  | bytes data =>
    obtain ⟨b, -, rfl⟩ := List.mem_map.1 h
    rfl

theorem SourceLine.recordFrom_bindings (address : Nat) (l : SourceLine) :
    recordFrom Call.bindings address l.calls = l.labels.map (·, address) := by
  have hlabels : recordFrom Call.bindings address (l.labels.map Call.label) =
      l.labels.map (·, address) := by
    induction l.labels with
    | nil => rfl
    | cons name names ih => exact congrArg ((name, address) :: ·) ih
  have hstatement : ∀ cursor,
      recordFrom Call.bindings cursor (l.statement.elim [] Statement.calls) = [] := by
    intro cursor
    cases l.statement with
    | none => rfl
    | some s => exact recordFrom_eq_nil (fun call hcall => s.bindings_calls hcall) cursor
  rw [calls, recordFrom_append, hlabels, hstatement, List.append_nil]

/-- A statement leaves the places of its operands to wait for the labels they use. -/
theorem Statement.map_label_references (cursor : Nat) (s : Statement) :
    (recordFrom Call.references cursor s.calls).map Reference.label = s.labels := by
  cases s with
  | plain | origin | string => rfl
  | immediate op x => cases x <;> rfl
  | words xs =>
    rw [calls, labels]
    induction xs generalizing cursor with
    | nil => rfl
    | cons x xs ih =>
      rw [List.map_cons, recordFrom, List.map_append, ih, List.flatMap_cons]
      cases x <;> rfl
  | bytes data =>
    rw [recordFrom_eq_nil (fun call hcall cursor => ?_)]
    · rfl
    · obtain ⟨b, -, rfl⟩ := List.mem_map.1 hcall
      rfl

theorem SourceLine.map_label_references (cursor : Nat) (l : SourceLine) :
    (recordFrom Call.references cursor l.calls).map Reference.label = l.uses := by
  have hlabels : recordFrom Call.references cursor (l.labels.map Call.label) = [] := by
    refine recordFrom_eq_nil (fun call hcall cursor => ?_) cursor
    obtain ⟨name, -, rfl⟩ := List.mem_map.1 hcall
    rfl
  rw [calls, recordFrom_append, hlabels, List.nil_append, uses]
  cases l.statement with
  | none => rfl
  | some s => exact s.map_label_references _

/-- The labels are bound to the addresses that the layout gives them. -/
theorem recordFrom_bindings_callsOf (address : Nat) (program : List SourceLine) :
    recordFrom Call.bindings address (callsOf program) = addressesFrom address program := by
  induction program generalizing address with
  | nil => rfl
  | cons l program ih =>
    rw [callsOf, List.flatMap_cons, recordFrom_append, l.recordFrom_bindings, l.foldl_moves_calls]
    exact congrArg (_ ++ ·) (ih _)

/-- The places that wait for addresses are those of the operands that use labels. -/
theorem map_label_referencesOf_callsOf (program : List SourceLine) (n : Nat) :
    (referencesOf (callsOf program)).map Reference.label = (usesFrom n program).map Prod.fst := by
  unfold referencesOf
  generalize 0 = cursor
  induction program generalizing cursor n with
  | nil => rfl
  | cons l program ih =>
    rw [callsOf, List.flatMap_cons, recordFrom_append, List.map_append, l.map_label_references,
      usesFrom, List.map_append, List.map_map]
    exact congrArg₂ (· ++ ·) (List.map_id _).symm (ih _ _)

/-! ### Taking in lines -/

/-- Labels are bound one after the other if each of them is new. -/
theorem bindLabels_eq_ok_iff :
    bindLabels b names = .ok b' ↔
      (names.Nodup ∧ ∀ name ∈ names, b.addressOf name = none) ∧
        names.foldl Builder.label b = b' := by
  induction names generalizing b with
  | nil => simp [bindLabels]
  | cons name names ih =>
    rw [bindLabels, List.foldl_cons]
    cases hname : b.addressOf name with
    | some a =>
      refine iff_of_false (fun h => by cases h) fun h => ?_
      cases (h.1.2 name List.mem_cons_self).symm.trans hname
    | none =>
      have hnew : ∀ other, (b.label name).addressOf other = none ↔
          name ≠ other ∧ b.addressOf other = none := by
        intro other
        rw [b.addressOf_label, Option.or_eq_none_iff, and_comm, ite_eq_right_iff]
        simp
      rw [if_neg (by simp), ih, List.nodup_cons, List.forall_mem_cons]
      simp only [hnew]
      constructor
      · rintro ⟨⟨hnodup, hnames⟩, hb'⟩
        exact ⟨⟨⟨fun hmem => (hnames name hmem).1 rfl, hnodup⟩, hname,
          fun other hother => (hnames other hother).2⟩, hb'⟩
      · rintro ⟨⟨⟨hmem, hnodup⟩, -, hnames⟩, hb'⟩
        exact ⟨⟨hnodup, fun other hother => ⟨fun heq => hmem (heq ▸ hother), hnames other hother⟩⟩,
          hb'⟩

namespace Draft

variable {d d' : Draft} {ls : List (List Char)} {cs : List Char}

/-- The draft with one more line, whose number is `n`. -/
def take (d : Draft) (n : Nat) (l : SourceLine) : Draft where
  builder := l.calls.foldl Call.perform d.builder
  uses := d.uses ++ l.uses.map fun name => (name, n)

theorem foldl_perform_labels (b : Builder) (names : List String) :
    (names.map Call.label).foldl Call.perform b = names.foldl Builder.label b := by
  rw [List.foldl_map]
  rfl

theorem take_none (d : Draft) (n : Nat) (names : List String) :
    d.take n ⟨names, none⟩ = { d with builder := names.foldl Builder.label d.builder } := by
  simp [take, SourceLine.calls, SourceLine.uses, foldl_perform_labels]

theorem take_some (d : Draft) (n : Nat) (names : List String) (s : Statement) :
    d.take n ⟨names, some s⟩ =
      { builder := s.emit (names.foldl Builder.label d.builder)
        uses := d.uses ++ s.labels.map fun name => (name, n) } := by
  simp [take, SourceLine.calls, SourceLine.uses, foldl_perform_labels, s.emit_eq]

/-- A line is taken in if it can be read and its labels are new. -/
theorem line_eq_ok_iff {line : Line} :
    d.line n line = .ok d' ↔
      ∃ l : SourceLine, line = ⟨l.labels, .ok l.statement⟩ ∧
        (l.labels.Nodup ∧ ∀ name ∈ l.labels, d.builder.addressOf name = none) ∧
        d.take n l = d' := by
  rw [Draft.line, bind_eq_ok_iff]
  constructor
  · rintro ⟨b, hb, h⟩
    obtain ⟨hnew, rfl⟩ := bindLabels_eq_ok_iff.1 hb
    obtain ⟨statement, hbody, h⟩ := bind_eq_ok_iff.1 h
    refine ⟨⟨line.labels, statement⟩, by rw [← hbody], hnew, ?_⟩
    cases statement with
    | none => rw [take_none, Except.ok.inj h]
    | some s => rw [take_some, Except.ok.inj h]
  · rintro ⟨⟨names, statement⟩, rfl, hnew, rfl⟩
    refine ⟨_, bindLabels_eq_ok_iff.2 ⟨hnew, rfl⟩, bind_eq_ok_iff.2 ⟨statement, rfl, ?_⟩⟩
    cases statement with
    | none => rw [take_none]; rfl
    | some s => rw [take_some]; rfl

/-- The draft of a program. -/
def ofProgram (program : List SourceLine) : Draft where
  builder := .ofCalls (callsOf program)
  uses := (usesFrom 1 program).toArray

theorem take_ofProgram (before : List SourceLine) (l : SourceLine) :
    (ofProgram before).take (1 + before.length) l = ofProgram (before ++ [l]) := by
  simp [take, ofProgram, callsOf, Builder.ofCalls, usesFrom_append, usesFrom]

theorem addressOf_ofProgram (program : List SourceLine) (name : String) :
    (ofProgram program).builder.addressOf name = (addressesOf program).lookup name := by
  rw [ofProgram, (Builder.records_ofCalls _).addressOf_eq, bindingsOf, recordFrom_bindings_callsOf,
    addressesOf]

theorem addressOf_ofProgram_eq_none_iff :
    (ofProgram program).builder.addressOf name = none ↔ name ∉ labelsOf program := by
  rw [addressOf_ofProgram, lookup_eq_none_iff_not_mem, addressesOf, map_fst_addressesFrom]

/-- One more line. -/
theorem line_ofProgram_eq_ok_iff (hbefore : (labelsOf before).Nodup) :
    (ofProgram before).line (1 + before.length) (Line.parse cs) = .ok d ↔
      ∃ l : SourceLine, l.Spelled cs ∧ (labelsOf (before ++ [l])).Nodup ∧
        ofProgram (before ++ [l]) = d := by
  rw [line_eq_ok_iff]
  refine exists_congr fun l => and_congr Line.parse_eq_iff (and_congr ?_ ?_)
  · simp only [addressOf_ofProgram_eq_none_iff, labelsOf_concat, List.nodup_append]
    constructor
    · rintro ⟨hnodup, hnew⟩
      exact ⟨hbefore, hnodup, fun name hname other hother heq => hnew other hother (heq ▸ hname)⟩
    · rintro ⟨-, hnodup, hapart⟩
      exact ⟨hnodup, fun name hname hmem => hapart name hmem name hname rfl⟩
  · rw [take_ofProgram]

theorem lines_cons_eq_ok_iff :
    d.lines n (cs :: ls) = .ok d' ↔
      ∃ d₁, d.line n (Line.parse cs) = .ok d₁ ∧ d₁.lines (n + 1) ls = .ok d' := by
  rw [Draft.lines]
  split
  · rename_i d₁ hline
    refine ⟨fun h => ⟨d₁, hline, h⟩, ?_⟩
    rintro ⟨d₂, hline', h⟩
    cases hline.symm.trans hline'
    exact h
  · rename_i hline
    refine iff_of_false (fun h => by cases h) ?_
    rintro ⟨d₁, hline', -⟩
    cases hline.symm.trans hline'

theorem lines_ofProgram_eq_ok_iff (hbefore : (labelsOf before).Nodup) :
    (ofProgram before).lines (1 + before.length) ls = .ok d ↔
      ∃ program, List.Forall₂ SourceLine.Spelled program ls ∧
        (labelsOf (before ++ program)).Nodup ∧ ofProgram (before ++ program) = d := by
  -- each line moves from the lines ahead to the program behind
  induction ls generalizing before with
  | nil =>
    simp only [List.forall₂_nil_right_iff, exists_eq_left, List.append_nil, hbefore, true_and]
    exact ⟨Except.ok.inj, congrArg Except.ok⟩
  | cons cs ls ih =>
    have hlength : ∀ l, 1 + before.length + 1 = 1 + (before ++ [l]).length := by simp; omega
    have hcons : ∀ (l : SourceLine) program, before ++ l :: program = before ++ [l] ++ program := by
      simp
    rw [lines_cons_eq_ok_iff]
    simp only [line_ofProgram_eq_ok_iff hbefore]
    constructor
    · rintro ⟨_, ⟨l, hl, hnodup, rfl⟩, hlines⟩
      rw [hlength l, ih hnodup] at hlines
      obtain ⟨program, hprogram, hrest⟩ := hlines
      exact ⟨l :: program, .cons hl hprogram, by rwa [hcons]⟩
    · rintro ⟨_, hprogram, hrest⟩
      obtain ⟨l, program, hl, htail, rfl⟩ := List.forall₂_cons_right_iff.1 hprogram
      rw [hcons] at hrest
      have hnodup : (labelsOf (before ++ [l])).Nodup := by
        rw [labelsOf, List.flatMap_append] at hrest
        exact (List.nodup_append.1 hrest.1).1
      refine ⟨_, ⟨l, hl, hnodup, rfl⟩, ?_⟩
      rw [hlength l, ih hnodup]
      exact ⟨program, htail, hrest⟩

/-- **Lines are taken in exactly if they spell a program whose labels are bound once.**  What comes
of them is the draft of that program. -/
theorem lines_eq_ok_iff :
    Draft.lines {} 1 ls = .ok d ↔
      ∃ program, List.Forall₂ SourceLine.Spelled program ls ∧ (labelsOf program).Nodup ∧
        ofProgram program = d :=
  lines_ofProgram_eq_ok_iff (show (labelsOf []).Nodup from List.nodup_nil)

/-! ### Finishing -/

theorem duplicates_ofProgram (h : (labelsOf program).Nodup) :
    (ofProgram program).builder.duplicates = #[] := by
  rw [ofProgram, (Builder.records_ofCalls _).duplicates_eq, bindingsOf, recordFrom_bindings_callsOf,
    map_fst_addressesFrom]
  exact h

/-- The labels that are used are those of the references. -/
theorem forall_references_ofProgram_iff (program : List SourceLine) (p : String → Prop) :
    (∀ r ∈ (ofProgram program).builder.references.toList, p r.label) ↔
      ∀ use ∈ usesOf program, p use.1 := by
  have hlabels : (ofProgram program).builder.references.toList.map Reference.label =
      (usesOf program).map Prod.fst := by
    rw [ofProgram, (Builder.records_ofCalls _).references_eq]
    exact map_label_referencesOf_callsOf program 1
  rw [← List.forall_mem_map, hlabels, List.forall_mem_map]

/-- The first use of a label that the program does not have. -/
theorem undefined?_ofProgram (program : List SourceLine) :
    (ofProgram program).undefined? =
      (usesOf program).find? fun use => use.1 ∉ labelsOf program := by
  have hnone : ∀ use : String × Nat,
      ((ofProgram program).builder.addressOf use.1).isNone = decide (use.1 ∉ labelsOf program) := by
    intro use
    rw [Bool.eq_iff_iff, Option.isNone_iff_eq_none, addressOf_ofProgram_eq_none_iff,
      decide_eq_true_iff]
  simp only [undefined?, hnone]
  exact List.find?_toArray _ _

theorem finish_of_undefined {k : Nat} (h : d.undefined? = some (name, k)) :
    d.finish = .error (.badLine k (.undefinedLabel name)) := by
  simp only [finish, h]

theorem finish_of_defined (h : d.undefined? = none) : d.finish = d.builder.finish := by
  simp only [finish, h]

theorem undefined?_ofProgram_eq_none_iff :
    (ofProgram program).undefined? = none ↔ ∀ use ∈ usesOf program, use.1 ∈ labelsOf program := by
  rw [undefined?_ofProgram, List.find?_eq_none]
  simp

theorem exists_finish_eq_ok_iff (h : (labelsOf program).Nodup) :
    (∃ image, (ofProgram program).finish = .ok image) ↔
      (∀ use ∈ usesOf program, use.1 ∈ labelsOf program) ∧
        ∀ use ∈ usesOf program, ∀ a, (use.1, a) ∈ addressesOf program → a ≤ Word.maxValue := by
  have hnodup : ((addressesOf program).map Prod.fst).Nodup := by
    rw [addressesOf, map_fst_addressesFrom]
    exact h
  have hreferences := forall_references_ofProgram_iff program fun name =>
    ∃ a, (ofProgram program).builder.addressOf name = some a ∧ a ≤ Word.maxValue
  constructor
  · rintro ⟨image, himage⟩
    cases hundefined : (ofProgram program).undefined? with
    | some use =>
      rw [finish_of_undefined hundefined] at himage
      cases himage
    | none =>
      rw [finish_of_defined hundefined] at himage
      refine ⟨undefined?_ofProgram_eq_none_iff.1 hundefined, fun use huse a ha => ?_⟩
      obtain ⟨-, hbound, -⟩ := Builder.finish_eq_ok himage
      obtain ⟨a', ha', hmax⟩ := hreferences.1 hbound use huse
      rw [addressOf_ofProgram, lookup_of_mem hnodup ha] at ha'
      cases ha'
      exact hmax
  · rintro ⟨hdefined, hmax⟩
    rw [finish_of_defined (undefined?_ofProgram_eq_none_iff.2 hdefined)]
    refine ⟨_, Builder.finish_of_bound (duplicates_ofProgram h) ?_⟩
    refine hreferences.2 fun use huse => ?_
    have hmem := hdefined use huse
    rw [← map_fst_addressesFrom 0, List.mem_map] at hmem
    obtain ⟨⟨_, a⟩, ha, rfl⟩ := hmem
    exact ⟨a, by rw [addressOf_ofProgram, lookup_of_mem hnodup ha], hmax use huse a ha⟩

end Draft

/-- An image is that of the program which the lines spell. -/
theorem assemble_eq_ok_iff {source : String} {image : Array UInt8} :
    assemble source = .ok image ↔
      ∃ program, List.Forall₂ SourceLine.Spelled program (Text.lines source.toList) ∧
        (labelsOf program).Nodup ∧ (Draft.ofProgram program).finish = .ok image := by
  rw [assemble, assembleLines, bind_eq_ok_iff]
  constructor
  · rintro ⟨d, hlines, hfinish⟩
    obtain ⟨program, hspelled, hnodup, rfl⟩ := Draft.lines_eq_ok_iff.1 hlines
    exact ⟨program, hspelled, hnodup, hfinish⟩
  · rintro ⟨program, hspelled, hnodup, hfinish⟩
    exact ⟨_, Draft.lines_eq_ok_iff.2 ⟨program, hspelled, hnodup, rfl⟩, hfinish⟩

/-- **The assembler accepts exactly its grammar.**  There is an image exactly if every line, without
its comment, spells labels and possibly a statement, no label is bound twice, every label that an
operand uses is bound on some line, and the address of every such label is a word. -/
theorem assemble_accepts_grammar (source : String) :
    (∃ image, assemble source = .ok image) ↔
      ∃ program : List SourceLine,
        List.Forall₂ SourceLine.Spelled program (Text.lines source.toList) ∧
        (labelsOf program).Nodup ∧
        (∀ use ∈ usesOf program, use.1 ∈ labelsOf program) ∧
        ∀ use ∈ usesOf program, ∀ a, (use.1, a) ∈ addressesOf program → a ≤ Word.maxValue := by
  rw [assemble, assembleLines]
  constructor
  · rintro ⟨image, h⟩
    obtain ⟨d, hlines, hfinish⟩ := bind_eq_ok_iff.1 h
    obtain ⟨program, hspelled, hnodup, rfl⟩ := Draft.lines_eq_ok_iff.1 hlines
    exact ⟨program, hspelled, hnodup, (Draft.exists_finish_eq_ok_iff hnodup).1 ⟨image, hfinish⟩⟩
  · rintro ⟨program, hspelled, hnodup, huses⟩
    obtain ⟨image, hfinish⟩ := (Draft.exists_finish_eq_ok_iff hnodup).2 huses
    have hlines := Draft.lines_eq_ok_iff.2 ⟨program, hspelled, hnodup, rfl⟩
    exact ⟨image, bind_eq_ok_iff.2 ⟨_, hlines, hfinish⟩⟩

-- a label may be named like a mnemonic, and a colon in a literal ends no label
example : assemble "push: a: Push ':' ; :\n.WORD push , 'a'" =
    .ok #[1, 58, 0, 0, 0, 0, 0, 0, 0, 97, 0, 0, 0] := by
  decide +kernel

end Assembly

end TapeMachine
