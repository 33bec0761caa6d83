import TapeMachine.Proofs.Images

/-!
# The layout of built code

A program of instructions and labels, built from front to back, is a list of `CodeItem`s.  The
builder keeps to it all along (`Assembly.Builder.Holds`), with a zero for every address that it does
not know yet.  The finished image is the bytes of the instructions one behind the other
(`Assembly.toList_of_finish`): an instruction starts where the sizes of those before it add up to
(`Assembly.start`), and a label stands for the start of the instruction behind it
(`Assembly.addressOf_code`).
-/

namespace TapeMachine

namespace Assembly

/-- A part of a program: an instruction, or a label in front of the next one. -/
inductive CodeItem
  /-- An instruction without an immediate. -/
  | plain (op : Opcode) (h : op.hasImmediate = false)
  /-- An instruction and its immediate. -/
  | word (op : Opcode) (h : op.hasImmediate = true) (operand : Word)
  /-- An instruction whose immediate is the address of a label. -/
  | address (op : Opcode) (h : op.hasImmediate = true) (name : String)
  /-- A label. -/
  | label (name : String)
  deriving DecidableEq

namespace CodeItem

/-- Add an item to what has been built. -/
def emit (b : Builder) : CodeItem → Builder
  | plain op _ => b.op op
  | word op _ v => b.opWord op v
  | address op _ name => b.opLabel op name
  | label name => b.label name

/-- The instruction of an item, if it is one. -/
def opcode? : CodeItem → Option Opcode
  | plain op _ => some op
  | word op _ _ => some op
  | address op _ _ => some op
  | label _ => none

/-- The name of an item that is a label. -/
def label? : CodeItem → Option String
  | label name => some name
  | _ => none

/-- Number of bytes of an item. -/
def size (x : CodeItem) : Nat := x.opcode?.elim 0 Opcode.size

/-- The immediate of an item, given the addresses of labels. -/
def immediate? (address : String → Word) : CodeItem → Option Word
  | word _ _ v => some v
  | .address _ _ name => some (address name)
  | _ => none

/-- The bytes of an item, given the addresses of labels. -/
def bytes (address : String → Word) (x : CodeItem) : List UInt8 :=
  match x.opcode? with
  | none => []
  | some op => op.byte :: (x.immediate? address).elim [] Word.encode

/-- The places in an item at `start` that wait for an address. -/
def references (start : Nat) : CodeItem → List Reference
  | address _ _ name => [⟨start + 1, name⟩]
  | _ => []

variable {x : CodeItem} {b : Builder} {name : String}

theorem size_of_opcode? {op : Opcode} (h : x.opcode? = some op) : x.size = op.size := by
  rw [size, h, Option.elim_some]

/-- An item with an immediate is an opcode byte and a word. -/
theorem bytes_of_immediate? {address : String → Word} {v : Word}
    (h : x.immediate? address = some v) :
    x.size = 1 + Word.width ∧ ∃ op : Opcode, x.bytes address = op.byte :: v.encode := by
  cases x with
  | plain | label => cases h
  | word op hop | address op hop =>
    cases h
    exact ⟨(size_of_opcode? rfl).trans (Opcode.size_of_hasImmediate hop), op, rfl⟩

theorem length_bytes (address : String → Word) (x : CodeItem) :
    (x.bytes address).length = x.size := by
  cases x with
  | plain op h => simp [bytes, size, opcode?, immediate?, Opcode.size_of_not_hasImmediate h]
  | word op h | address op h =>
    simp [bytes, size, opcode?, immediate?, Opcode.size_of_hasImmediate h, Nat.add_comm]
  | label => rfl

theorem cursor_emit (b : Builder) (x : CodeItem) : (x.emit b).cursor = b.cursor + x.size := by
  cases x with
  | plain op h =>
    change b.cursor + 1 = b.cursor + op.size
    rw [Opcode.size_of_not_hasImmediate h]
  | word op h | address op h =>
    change b.cursor + 1 + Word.width = b.cursor + op.size
    rw [Opcode.size_of_hasImmediate h, Nat.add_assoc]
  | label name =>
    simp only [emit, Builder.label]
    split <;> rfl

/-- An item is emitted with a zero for the address of a label. -/
theorem image_emit (h : b.AtEnd) (x : CodeItem) :
    (x.emit b).image.toList = b.image.toList ++ x.bytes fun _ => 0 := by
  have htwo : ∀ op v, ((b.op op).word v).image.toList = b.image.toList ++ op.byte :: v.encode := by
    intro op v
    change (((b.bytes [op.byte]).bytes v.encode).image.toList) = _
    rw [(h.bytes _).image_bytes, h.image_bytes, List.append_assoc]
    rfl
  cases x with
  | plain op => exact h.image_bytes [op.byte]
  | word op _ v => exact htwo op v
  | address op => exact htwo op 0
  | label name =>
    simp only [emit, Builder.label]
    split <;> exact (List.append_nil _).symm

theorem references_emit (b : Builder) (x : CodeItem) :
    (x.emit b).references.toList = b.references.toList ++ x.references b.cursor := by
  cases x with
  | plain | word => exact (List.append_nil _).symm
  | address op h name => exact Array.toList_push
  | label name =>
    simp only [emit, Builder.label]
    split <;> exact (List.append_nil _).symm

/-- Only a label changes what is known of labels. -/
theorem labels_emit (b : Builder) (h : x.label? = none) :
    (x.emit b).labels = b.labels ∧ (x.emit b).duplicates = b.duplicates := by
  cases x with
  | label => cases h
  | _ =>
    simp only [emit, Builder.op, Builder.byte, Builder.opWord, Builder.opLabel, Builder.wordLabel,
      Builder.word, Builder.labels_bytes, Builder.duplicates_bytes, and_self]

/-- An item binds its label, unless that is bound already. -/
theorem addressOf_emit (b : Builder) (x : CodeItem) (name : String) :
    (x.emit b).addressOf name =
      (b.addressOf name).or (if x.label? = some name then some b.cursor else none) := by
  cases hl : x.label? with
  | none => simp [Builder.addressOf, (labels_emit b hl).1]
  | some other =>
    cases x with
    | label _ =>
      cases hl
      simp only [Option.some.injEq]
      exact b.addressOf_label other name
    | _ => cases hl

theorem duplicates_of_emit (h : (x.emit b).duplicates = #[]) : b.duplicates = #[] := by
  cases x with
  | label name => exact ((b.duplicates_label_eq_empty_iff name).1 h).1
  | _ => rwa [(labels_emit b rfl).2] at h

end CodeItem

/-- Number of bytes of a program. -/
def codeSize : List CodeItem → Nat
  | [] => 0
  | x :: items => x.size + codeSize items

/-- The places in a program at `start` that wait for an address. -/
def referencesFrom : Nat → List CodeItem → List Reference
  | _, [] => []
  | start, x :: items => x.references start ++ referencesFrom (start + x.size) items

/-- The builder of a program. -/
def Builder.code (items : List CodeItem) : Builder := items.foldl CodeItem.emit .empty

section

variable {items before after : List CodeItem} {x : CodeItem} {b : Builder} {image : Array UInt8}
  {name : String} {a : Nat}

@[simp] theorem codeSize_nil : codeSize [] = 0 := rfl

@[simp] theorem codeSize_cons (x : CodeItem) (items : List CodeItem) :
    codeSize (x :: items) = x.size + codeSize items := rfl

@[simp] theorem codeSize_append (items items' : List CodeItem) :
    codeSize (items ++ items') = codeSize items + codeSize items' := by
  induction items with
  | nil => simp
  | cons x items ih => rw [List.cons_append, codeSize_cons, ih, codeSize_cons, Nat.add_assoc]

theorem length_flatMap_bytes (address : String → Word) (items : List CodeItem) :
    (items.flatMap (CodeItem.bytes address)).length = codeSize items := by
  induction items with
  | nil => rfl
  | cons x items ih => rw [List.flatMap_cons, List.length_append, CodeItem.length_bytes, ih,
      codeSize_cons]

theorem referencesFrom_append (start : Nat) (items items' : List CodeItem) :
    referencesFrom start (items ++ items') =
      referencesFrom start items ++ referencesFrom (start + codeSize items) items' := by
  induction items generalizing start with
  | nil => rfl
  | cons x items ih =>
    rw [List.cons_append, referencesFrom, ih, referencesFrom, codeSize_cons, List.append_assoc,
      Nat.add_assoc]

/-! ### Before the addresses are filled in -/

/-- A builder holds a program: its bytes with zeros for addresses, and the places that wait for
them. -/
structure Builder.Holds (b : Builder) (items : List CodeItem) : Prop where
  cursor_eq : b.cursor = codeSize items
  image_eq : b.image.toList = items.flatMap (CodeItem.bytes fun _ => 0)
  references_eq : b.references.toList = referencesFrom 0 items

theorem Builder.Holds.atEnd (h : b.Holds items) : b.AtEnd := by
  rw [AtEnd, h.cursor_eq, ← length_flatMap_bytes fun _ => 0, ← h.image_eq, Array.length_toList]

/-- One more item. -/
theorem Builder.Holds.emit (h : b.Holds items) (x : CodeItem) :
    (x.emit b).Holds (items ++ [x]) where
  cursor_eq := by
    rw [x.cursor_emit, h.cursor_eq, codeSize_append, codeSize_cons, codeSize_nil, Nat.add_zero]
  image_eq := by
    rw [x.image_emit h.atEnd, h.image_eq, List.flatMap_append, List.flatMap_singleton]
  references_eq := by
    rw [x.references_emit, h.references_eq, h.cursor_eq, referencesFrom_append, Nat.zero_add,
      referencesFrom, referencesFrom, List.append_nil]

theorem Builder.Holds.foldl_emit (h : b.Holds before) (items : List CodeItem) :
    (items.foldl CodeItem.emit b).Holds (before ++ items) := by
  induction items generalizing b before with
  | nil => rwa [List.append_nil]
  | cons x items ih =>
    have := ih (h.emit x)
    rwa [List.append_assoc] at this

theorem Builder.holds_code (items : List CodeItem) : (code items).Holds items := by
  have hempty : Builder.empty.Holds [] := ⟨rfl, rfl, rfl⟩
  exact hempty.foldl_emit items

/-! ### The finished image -/

/-- Filling in the address that an item waits for. -/
theorem foldl_patch_references (b : Builder) (front back : List UInt8) (x : CodeItem) :
    (x.references front.length).foldl b.patch (front ++ x.bytes (fun _ => 0) ++ back).toArray =
      (front ++ x.bytes b.resolved ++ back).toArray := by
  cases x with
  | address op h name =>
    -- the placeholder stands behind the opcode byte
    have hlen : (0 : Word).encode.length = (b.resolved name).encode.length := rfl
    have hplace := place_append (front ++ [op.byte]) back hlen
    simp only [List.length_append, List.length_singleton, List.append_assoc,
      List.singleton_append] at hplace
    simp only [CodeItem.references, CodeItem.bytes, CodeItem.opcode?, CodeItem.immediate?,
      Option.elim_some, List.foldl_cons, List.foldl_nil, Builder.patch, List.append_assoc,
      List.cons_append]
    exact hplace
  | plain | word | label => rfl

theorem foldl_patch_referencesFrom (b : Builder) (front back : List UInt8)
    (items : List CodeItem) :
    (referencesFrom front.length items).foldl b.patch
        (front ++ items.flatMap (CodeItem.bytes fun _ => 0) ++ back).toArray =
      (front ++ items.flatMap (CodeItem.bytes b.resolved) ++ back).toArray := by
  induction items generalizing front with
  | nil => rfl
  | cons x items ih =>
    -- the references of `x` are filled in first, and the others lie behind it
    have hx := foldl_patch_references b front
      (items.flatMap (CodeItem.bytes fun _ => 0) ++ back) x
    have hlen : front.length + x.size = (front ++ x.bytes b.resolved).length := by
      rw [List.length_append, CodeItem.length_bytes]
    rw [List.flatMap_cons, List.flatMap_cons, ← List.append_assoc, ← List.append_assoc,
      referencesFrom, List.foldl_append, List.append_assoc _ _ back, hx, hlen,
      ← List.append_assoc _ _ back, ih]

/-- **The image of a program** is the bytes of its instructions, with the addresses of the labels
for immediates. -/
theorem toList_of_finish (h : (Builder.code items).finish = .ok image) :
    image.toList = items.flatMap (CodeItem.bytes (Builder.code items).resolved) := by
  have hholds := Builder.holds_code items
  obtain ⟨-, -, rfl⟩ := Builder.finish_eq_ok h
  have himage : (Builder.code items).image =
      ([] ++ items.flatMap (CodeItem.bytes fun _ => 0) ++ []).toArray := by
    rw [List.nil_append, List.append_nil, ← hholds.image_eq, Array.toArray_toList]
  have hpatch := foldl_patch_referencesFrom (Builder.code items) [] [] items
  rw [hholds.references_eq, himage]
  refine (congrArg Array.toList hpatch).trans ?_
  rw [List.nil_append, List.append_nil]

theorem size_of_finish (h : (Builder.code items).finish = .ok image) :
    image.size = codeSize items := by
  rw [← Array.length_toList, toList_of_finish h, length_flatMap_bytes]

/-- The bytes of an item stand behind those of the items before it. -/
theorem getElem?_of_finish (h : (Builder.code items).finish = .ok image)
    (hitems : items = before ++ x :: after) {j : Nat} (hj : j < x.size) :
    image[codeSize before + j]? = (x.bytes (Builder.code items).resolved)[j]? := by
  rw [← Array.getElem?_toList, toList_of_finish h]
  generalize (Builder.code items).resolved = address
  rw [hitems, List.flatMap_append, ← length_flatMap_bytes address,
    List.getElem?_append_right (Nat.le_add_right _ _), Nat.add_sub_cancel_left, List.flatMap_cons,
    List.getElem?_append_left (by rwa [CodeItem.length_bytes])]

/-! ### Labels -/

theorem duplicates_foldl_emit (h : (items.foldl CodeItem.emit b).duplicates = #[]) :
    b.duplicates = #[] := by
  induction items generalizing b with
  | nil => exact h
  | cons x items ih => exact CodeItem.duplicates_of_emit (ih h)

/-- A label that is bound keeps its address. -/
theorem addressOf_foldl_emit (h : b.addressOf name = some a) (items : List CodeItem) :
    (items.foldl CodeItem.emit b).addressOf name = some a := by
  induction items generalizing b with
  | nil => exact h
  | cons x items ih =>
    refine ih ?_
    rw [CodeItem.addressOf_emit, h, Option.some_or]

/-- A label has the address of what is built behind it. -/
theorem addressOf_code (hd : (Builder.code (before ++ .label name :: after)).duplicates = #[]) :
    (Builder.code (before ++ .label name :: after)).addressOf name = some (codeSize before) := by
  rw [Builder.code, List.foldl_append, List.foldl_cons] at hd ⊢
  -- no duplicate at the end means none on the way, so the label was new where it stands
  obtain ⟨-, hnew⟩ :=
    (Builder.duplicates_label_eq_empty_iff _ name).1 (duplicates_foldl_emit hd)
  have hl : (CodeItem.label name).label? = some name := rfl
  refine addressOf_foldl_emit ?_ after
  rw [CodeItem.addressOf_emit, hnew, Option.none_or, if_pos hl]
  exact congrArg some (Builder.holds_code before).cursor_eq

theorem label_mem_of_addressOf_foldl_emit (hnew : b.addressOf name = none)
    (h : (items.foldl CodeItem.emit b).addressOf name = some a) : .label name ∈ items := by
  induction items generalizing b with
  | nil => cases hnew.symm.trans h
  | cons x items ih =>
    by_cases hx : x = .label name
    · rw [hx]
      exact List.mem_cons_self
    · refine List.mem_cons_of_mem _ (ih ?_ h)
      have hl : x.label? ≠ some name := by
        intro hl
        cases x <;> cases hl
        exact hx rfl
      rw [CodeItem.addressOf_emit, hnew, Option.none_or, if_neg hl]

/-- Every label that an instruction of a finished program names stands somewhere in it. -/
theorem exists_address_of_finish {op : Opcode} {h : op.hasImmediate = true}
    (hfin : (Builder.code items).finish = .ok image) (hx : .address op h name ∈ items) :
    ∃ a, (Builder.code items).addressOf name = some a ∧ a ≤ Word.maxValue ∧
      .label name ∈ items := by
  obtain ⟨before, after, rfl⟩ := List.append_of_mem hx
  -- the instruction left a reference behind its opcode, and finishing has looked its label up
  obtain ⟨-, hbound, -⟩ := Builder.finish_eq_ok hfin
  have hmem : (⟨codeSize before + 1, name⟩ : Reference) ∈
      (Builder.code (before ++ .address op h name :: after)).references.toList := by
    rw [(Builder.holds_code _).references_eq, referencesFrom_append, Nat.zero_add, referencesFrom]
    exact List.mem_append_right _ (List.mem_append_left _ List.mem_cons_self)
  obtain ⟨a, ha, hmax⟩ := hbound _ hmem
  exact ⟨a, ha, hmax, label_mem_of_addressOf_foldl_emit rfl ha⟩

/-! ### Where an instruction starts -/

/-- The instructions of a program, in order. -/
def instructions (items : List CodeItem) : List CodeItem := items.filter (·.opcode?.isSome)

/-- The start of an instruction: the sizes of those before it add up to it. -/
def start (items : List CodeItem) (i : Nat) : Nat := codeSize ((instructions items).take i)

theorem instructions_append (items items' : List CodeItem) :
    instructions (items ++ items') = instructions items ++ instructions items' :=
  List.filter_append ..

theorem codeSize_instructions (items : List CodeItem) :
    codeSize (instructions items) = codeSize items := by
  induction items with
  | nil => rfl
  | cons x items ih =>
    rw [instructions, List.filter_cons, codeSize_cons, ← ih]
    split
    · rw [codeSize_cons]
      rfl
    · rename_i hx
      have hsize : x.size = 0 := by
        simp only [Bool.not_eq_true, Option.isSome_eq_false_iff, Option.isNone_iff_eq_none] at hx
        rw [CodeItem.size, hx, Option.elim_none]
      rw [hsize, Nat.zero_add]
      rfl

/-- What is built behind `before` starts where `before` ends. -/
theorem start_append (before after : List CodeItem) :
    start (before ++ after) (instructions before).length = codeSize before := by
  rw [start, instructions_append, List.take_left, codeSize_instructions]

theorem start_length (items : List CodeItem) :
    start items (instructions items).length = codeSize items := by
  rw [start, List.take_length, codeSize_instructions]

theorem start_succ {i : Nat} (h : (instructions items)[i]? = some x) :
    start items (i + 1) = start items i + x.size := by
  rw [start, start, List.take_add_one, h, codeSize_append]
  rfl

theorem exists_eq_append_of_getElem? {i : Nat} (h : (instructions items)[i]? = some x) :
    ∃ before after, items = before ++ x :: after ∧ (instructions before).length = i := by
  obtain ⟨hi, hx⟩ := List.getElem?_eq_some_iff.1 h
  have hsplit : instructions items =
      (instructions items).take i ++ x :: (instructions items).drop (i + 1) := by
    rw [← hx, ← List.drop_eq_getElem_cons hi, List.take_append_drop]
  obtain ⟨l₁, l₂, hitems, htake, hdrop⟩ := List.filter_eq_append_iff.1 hsplit
  obtain ⟨skipped, after, hl₂, hskipped, -, -⟩ := List.filter_eq_cons_iff.1 hdrop
  refine ⟨l₁ ++ skipped, after, by rw [hitems, hl₂, List.append_assoc], ?_⟩
  have hnone : instructions skipped = [] := List.filter_eq_nil_iff.2 hskipped
  rw [instructions_append, hnone, List.append_nil, instructions, htake,
    List.length_take_of_le (Nat.le_of_lt hi)]

end

end Assembly

end TapeMachine
