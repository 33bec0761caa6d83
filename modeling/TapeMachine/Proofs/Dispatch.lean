import TapeMachine.Proofs.Completion
import TapeMachine.Proofs.Layout

/-!
# Built code on the tape

A machine reads code the way it was built.  With the bytes of an instruction in front of it
(`Machine.Faces`) it fetches that instruction, finds the immediate the instruction was built with,
and goes on at the start of the next one.  Together with the layout of built code this is
`Assembly.built_code_dispatches`: instruction by instruction, the machine does what the program
says, and a jump to a label lands on the instruction behind it.
-/

namespace TapeMachine

/-- Four bytes on the tape are the word they encode. -/
theorem Tape.word_of_encode {t : Tape} {position : Nat} {v : Word}
    (h : ∀ j < Word.width, t.cells[position + j]? = v.encode[j]?) : t.word position = v := by
  have hdecode := Word.decode_encode v []
  obtain ⟨b₀, b₁, b₂, b₃, he⟩ : ∃ b₀ b₁ b₂ b₃, v.encode = [b₀, b₁, b₂, b₃] := ⟨_, _, _, _, rfl⟩
  rw [he] at hdecode h
  have h₀ : t.cells[position]? = _ := h 0 (by decide)
  have h₁ := h 1 (by decide)
  have h₂ := h 2 (by decide)
  have h₃ := h 3 (by decide)
  simp only [word, cell, Array.getD_eq_getD_getElem?, h₀, h₁, h₂, h₃]
  exact Option.some.inj hdecode

namespace Machine

open Assembly (CodeItem)

variable {m : Machine} {x : CodeItem} {address : String → Word} {op : Opcode} {v : Word}

/-- The bytes of an item stand at the instruction pointer. -/
def Faces (m : Machine) (x : CodeItem) (address : String → Word) : Prop :=
  ∀ j < x.size, m.tape.cells[m.ip + j]? = (x.bytes address)[j]?

theorem Faces.fits (h : m.Faces x address) (hop : x.opcode? = some op) :
    m.ip + op.size ≤ m.tape.capacity := by
  have hsize := CodeItem.size_of_opcode? hop
  have hpos := op.size_pos
  have hlast := h (op.size - 1) (by omega)
  rw [List.getElem?_eq_getElem (by rw [CodeItem.length_bytes]; omega)] at hlast
  obtain ⟨hlt, -⟩ := Array.getElem?_eq_some_iff.1 hlast
  unfold Tape.capacity
  omega

theorem Faces.fetches (h : m.Faces x address) (hop : x.opcode? = some op) : m.Fetches op := by
  have hsize := CodeItem.size_of_opcode? hop
  have hpos := op.size_pos
  have hfits := h.fits hop
  have hfirst := h 0 (by omega)
  simp only [CodeItem.bytes, hop, Nat.add_zero, List.getElem?_cons_zero] at hfirst
  refine ⟨by omega, ?_⟩
  rw [Tape.cell, Array.getD_eq_getD_getElem?, hfirst, Option.getD_some, Opcode.ofByte?_byte]

theorem Faces.immediate_eq (h : m.Faces x address) (hv : x.immediate? address = some v) :
    m.immediate = v := by
  obtain ⟨hsize, op, hbytes⟩ := CodeItem.bytes_of_immediate? hv
  refine Tape.word_of_encode fun j hj => ?_
  have hbyte := h (1 + j) (by omega)
  rwa [hbytes, Nat.add_comm 1 j, List.getElem?_cons_succ, Nat.add_comm j 1,
    ← Nat.add_assoc] at hbyte

end Machine

namespace Assembly

variable {items before after : List CodeItem} {x : CodeItem} {image : Array UInt8} {i : Nat}
  {op : Opcode} {name : String} {m : Machine}

/-- A machine at the start of an instruction of a program faces that instruction, if the tape has it
as the image does. -/
theorem faces_of_finish (hfin : (Builder.code items).finish = .ok image)
    (hi : (instructions items)[i]? = some x) (hip : m.ip = start items i)
    (htape : ∀ k, start items i ≤ k → k < start items (i + 1) → m.tape.cells[k]? = image[k]?) :
    m.Faces x (Builder.code items).resolved := by
  obtain ⟨before, after, hitems, hlen⟩ := exists_eq_append_of_getElem? hi
  have hstart : start items i = codeSize before := by rw [hitems, ← hlen, start_append]
  have hnext := start_succ hi
  intro j hj
  rw [hip, htape _ (Nat.le_add_right _ _) (by omega), hstart, getElem?_of_finish hfin hitems hj]

/-- The immediate of an instruction that names a label is the start of the instruction behind the
label. -/
theorem toInt_resolved_of_finish {h : op.hasImmediate = true}
    (hfin : (Builder.code items).finish = .ok image) (hx : .address op h name ∈ items)
    (hitems : items = before ++ .label name :: after) :
    ((Builder.code items).resolved name).toInt = start items (instructions before).length := by
  obtain ⟨a, ha, hmax, -⟩ := exists_address_of_finish hfin hx
  have hlabel : (Builder.code items).addressOf name = some (codeSize before) := by
    have hd := (Builder.finish_eq_ok hfin).1
    rw [hitems] at hd ⊢
    exact addressOf_code hd
  have hsize : a = codeSize before := Option.some.inj (ha.symm.trans hlabel)
  rw [Builder.toInt_resolved ha hmax, hsize, hitems, start_append]

/-- **Code is executed as it was built.**  A finished image ends where its last instruction does.
Every instruction of it starts where the sizes of those before it add up to, which is where the
builder emitted it.  A running machine that stands there, with the bytes of the instruction on its
tape, executes this instruction, and what it reads as the immediate is the operand the instruction
was built with, or the start of the instruction behind the label that it names (the end of the image
for a label at the end).  If the machine still runs then and control was not transferred, it stands
at the start of the next instruction (the end of the image after the last).  A jump to a label that
is taken lands at the label, if that lies on the tape. -/
theorem built_code_dispatches (hfin : (Builder.code items).finish = .ok image) :
    image.size = start items (instructions items).length ∧
    ∀ i x op, (instructions items)[i]? = some x → x.opcode? = some op →
      (∃ before after, items = before ++ x :: after ∧ (instructions before).length = i ∧
        (Builder.code before).cursor = start items i) ∧
      ∀ config m, Machine.Reachable config m → m.status = .running → m.ip = start items i →
        (∀ k, start items i ≤ k → k < start items (i + 1) → m.tape.cells[k]? = image[k]?) →
        m.fetch = .ok (some op) ∧
        (∀ h v, x = .word op h v → m.readImmediate = .ok v) ∧
        (∀ h name, x = .address op h name → .label name ∈ items ∧
          ∀ before after, items = before ++ .label name :: after →
            ∃ v, m.readImmediate = .ok v ∧ v.toInt = start items (instructions before).length) ∧
        ∀ {κ : Type} [Console κ] (c : κ),
          m.step c = m.execute op c ∧
          ((m.step c).1.status = .running → ¬ m.Transfers op →
            (m.step c).1.ip = start items (i + 1)) ∧
          ∀ h name before after, x = .address op h name → items = before ++ .label name :: after →
            m.Jumps op → start items (instructions before).length < m.tape.capacity →
            m.step c =
              ({ m with ip := start items (instructions before).length, steps := m.steps + 1 },
                c) := by
  refine ⟨by rw [size_of_finish hfin, start_length], ?_⟩
  intro i x op hi hop
  refine ⟨?_, ?_⟩
  · obtain ⟨before, after, hitems, hlen⟩ := exists_eq_append_of_getElem? hi
    refine ⟨before, after, hitems, hlen, ?_⟩
    rw [(Builder.holds_code before).cursor_eq, hitems, ← hlen, start_append]
  · intro config m hm hs hip htape
    have hlimits := hm.conforms.withinLimits
    have hfaces := faces_of_finish hfin hi hip htape
    have hf := hfaces.fetches hop
    have hfits := hfaces.fits hop
    have hmem : x ∈ items := (List.mem_filter.1 (List.mem_of_getElem? hi)).1
    -- the tape holds all five bytes of an instruction with an immediate, so it can be read
    have hread : op.hasImmediate = true → m.readImmediate = .ok m.immediate := by
      intro himm
      have hsize := Opcode.size_of_hasImmediate himm
      exact Tape.readWord_of_le (by omega)
    refine ⟨hf.fetch_eq, ?_, ?_, fun c => ⟨?_, ?_, ?_⟩⟩
    · rintro h v rfl
      rw [hread h, hfaces.immediate_eq rfl]
    · rintro h name rfl
      obtain ⟨-, -, -, hlabel⟩ := exists_address_of_finish hfin hmem
      refine ⟨hlabel, fun before after hitems => ⟨_, hread h, ?_⟩⟩
      rw [hfaces.immediate_eq rfl, toInt_resolved_of_finish hfin hmem hitems]
    · rw [Machine.step, hs, hf.fetch_eq]
      rfl
    · intro hr ht
      rw [Machine.ip_step_of_running hlimits hs hf hr ht, hip, start_succ hi,
        CodeItem.size_of_opcode? hop]
    · rintro h name before after rfl hitems hj hin
      have himm : m.immediate.toInt = start items (instructions before).length := by
        rw [hfaces.immediate_eq rfl, toInt_resolved_of_finish hfin hmem hitems]
      rw [Machine.step_of_jumps hlimits hs hf hj hfits (by omega), Machine.addressOf, himm,
        Int.toNat_natCast]

/-- A jump over one label and one instruction to another label. -/
def forwardJump : List CodeItem :=
  [.address .jump rfl "end", .label "mid", .plain .nop rfl, .label "end", .plain .halt rfl]

/-- The jump lands on the last byte of the tape. -/
theorem built_code_dispatches_forward_jump :
    ∃ m : Machine, Machine.Reachable { tapeCapacity := 7, maxStackDepth := 1 } m ∧
      (Builder.code forwardJump).finish = .ok m.tape.cells ∧
      m.step (Script.ofLines []) = ({ m with ip := 6, steps := 1 }, Script.ofLines []) := by
  have hfin : (Builder.code forwardJump).finish = .ok #[0x10, 6, 0, 0, 0, 0, 0xff] := by rfl
  have hm : Machine.Reachable { tapeCapacity := 7, maxStackDepth := 1 } _ :=
    .load #[0x10, 6, 0, 0, 0, 0, 0xff] .new
  obtain ⟨-, hinstr⟩ := built_code_dispatches hfin
  obtain ⟨-, hrun⟩ := hinstr 0 _ _ rfl rfl
  obtain ⟨-, -, -, hstep⟩ := hrun _ _ hm rfl rfl fun _ _ _ => rfl
  refine ⟨_, hm, hfin, ?_⟩
  exact (hstep (Script.ofLines [])).2.2 rfl "end" (forwardJump.take 3) (forwardJump.drop 4) rfl rfl
    (.inl rfl) (by decide)

end Assembly

end TapeMachine
