import Mathlib.Data.List.Chain
import TapeMachine.Proofs.Blocks
import TapeMachine.Proofs.Listings

/-!
# Listings and machines

A listing is read off an image by code of its own, with the end of the range in place of the end of
the tape.  It is nevertheless what a machine executes.

* The lines lie side by side (`Tiles`).  They start where the range does, and they end where it
  does unless the last one is a byte that does not start a complete instruction;
* a machine that has loaded the image and stands at a line with an opcode fetches that opcode and
  reads the operand of the line as its immediate;
* a machine whose tape ends with the image cannot decode a byte for the same two reasons as the
  listing (`Machine.undecodable_iff`): there is no such opcode, or its immediate is cut off.

All this together is `listing_matches_machine`.
-/

namespace TapeMachine

/-! ### Lines side by side -/

/-- Lines that lie side by side from `start` on, up to `stop` or to one without an opcode. -/
structure Tiles (lines : List Listing) (start stop : Nat) : Prop where
  /-- An empty range has no lines. -/
  nil : stop ≤ start → lines = []
  /-- The first line is at the start of the range. -/
  head : start < stop → ∃ l, lines.head? = some l ∧ l.address = start
  /-- There is neither a gap nor an overlap between a line and the next. -/
  next : lines.IsChain fun l l' => l'.address = l.address + l.size
  /-- Only the last line may be without an opcode. -/
  complete : ∀ l ∈ lines.dropLast, l.opcode ≠ none
  /-- No line reaches beyond the range. -/
  inside : ∀ l ∈ lines, l.address + l.size ≤ stop
  /-- If the last line has an opcode, the lines fill the range. -/
  last : ∀ l, lines.getLast? = some l → l.opcode ≠ none → l.address + l.size = stop

variable {image : Array UInt8} {start stop : Nat} {l : Listing} {lines : List Listing} {op : Opcode}
  {v : Word}

theorem tiles_nil (h : stop ≤ start) : Tiles [] start stop where
  nil _ := rfl
  head hlt := absurd h (Nat.not_le.2 hlt)
  next := .nil
  complete := by simp
  inside := by simp
  last := by simp

theorem tiles_singleton (hin : l.address + l.size ≤ stop) (hlt : l.address < stop)
    (hop : l.opcode = none) : Tiles [l] l.address stop where
  nil h := absurd h (Nat.not_le.2 hlt)
  head _ := ⟨l, rfl, rfl⟩
  next := .singleton l
  complete := by simp
  inside := by simpa using hin
  last := by simp [hop]

/-- A line with an opcode in front of lines that start behind it. -/
theorem Tiles.cons (h : Tiles lines (l.address + l.size) stop) (hin : l.address + l.size ≤ stop)
    (hlt : l.address < stop) (hop : l.opcode ≠ none) : Tiles (l :: lines) l.address stop where
  nil hle := absurd hle (Nat.not_le.2 hlt)
  head _ := ⟨l, rfl, rfl⟩
  next := by
    refine List.isChain_cons.2 ⟨fun l' hl' => ?_, h.next⟩
    rcases Nat.lt_or_ge (l.address + l.size) stop with hmore | hend
    · obtain ⟨first, hfirst, haddress⟩ := h.head hmore
      cases hfirst.symm.trans hl'
      exact haddress
    · rw [h.nil hend] at hl'
      cases hl'
  complete := by
    intro l' hl'
    cases lines with
    | nil => cases hl'
    | cons first rest =>
      rcases List.mem_cons.1 hl' with rfl | hmem
      · exact hop
      · exact h.complete l' hmem
  inside := by
    intro l' hl'
    rcases List.mem_cons.1 hl' with rfl | hmem
    · exact hin
    · exact h.inside l' hmem
  last := by
    intro l' hl' hop'
    cases lines with
    | nil =>
      cases hl'
      refine Nat.le_antisymm hin (Nat.le_of_not_lt fun hmore => ?_)
      obtain ⟨first, hfirst, -⟩ := h.head hmore
      cases hfirst
    | cons first rest => exact h.last l' hl' hop'

/-- The lines of a listing lie side by side. -/
theorem tiles_listFrom (hstop : stop ≤ image.size) (start : Nat) :
    Tiles (listFrom image stop start) start stop := by
  fun_induction listFrom image stop start with
  | case1 address hlt byte op operand hinstr hdec ih =>
    obtain ⟨hin, -⟩ := Listing.shows_instruction hstop hinstr
    exact Tiles.cons (l := ⟨address, byte, some op, operand⟩) ih hin hlt (by simp)
  | case2 address hlt byte => exact tiles_singleton (l := ⟨address, byte, none, none⟩) hlt hlt rfl
  | case3 address hge => exact tiles_nil (Nat.le_of_not_lt hge)

/-! ### What a line shows -/

/-- What stands at an address is decided by its byte and by the room behind it. -/
theorem exists_instructionAt?_iff :
    (∃ operand, instructionAt? image start stop = some (op, operand)) ↔
      image[start]?.bind Opcode.ofByte? = some op ∧ start + op.size ≤ stop := by
  unfold instructionAt?
  cases image[start]?.bind Opcode.ofByte? with
  | none => simp
  | some op' =>
    constructor
    · rintro ⟨operand, h⟩
      obtain ⟨hfits, heq⟩ := Option.ite_none_right_eq_some.1 h
      cases heq
      exact ⟨rfl, hfits⟩
    · rintro ⟨heq, hfits⟩
      cases heq
      exact ⟨_, if_pos hfits⟩

/-- A line has the opcode of its byte, unless the instruction does not end in the range. -/
theorem opcode_eq_some_iff (hl : l ∈ listFrom image stop start) :
    l.opcode = some op ↔
      image[l.address]?.bind Opcode.ofByte? = some op ∧ l.address + op.size ≤ stop := by
  rw [← exists_instructionAt?_iff]
  fun_induction listFrom image stop start with
  | case1 address hlt byte op' operand hinstr hdec ih =>
    rcases List.mem_cons.1 hl with rfl | hl
    · simp [hinstr]
    · exact ih hl
  | case2 address hlt byte hnone =>
    rw [List.mem_singleton.1 hl]
    simp [hnone]
  | case3 => cases hl

theorem address_lt_of_mem_listFrom (hl : l ∈ listFrom image stop start) : l.address < stop := by
  fun_induction listFrom image stop start with
  | case1 address hlt byte op operand hinstr hdec ih =>
    rcases List.mem_cons.1 hl with rfl | hl
    · exact hlt
    · exact ih hl
  | case2 address hlt =>
    rw [List.mem_singleton.1 hl]
    exact hlt
  | case3 => cases hl

/-! ### The image on a tape -/

theorem Tape.exists_cells_of_load {t t' : Tape} (ht : t.load image = .ok t') :
    ∃ zeros, t'.cells = image ++ zeros := by
  unfold load at ht
  split_ifs at ht
  cases ht
  exact ⟨_, rfl⟩

theorem Tape.getElem?_of_load {t t' : Tape} {i : Nat} (ht : t.load image = .ok t')
    (hi : i < image.size) : t'.cells[i]? = image[i]? := by
  obtain ⟨zeros, hcells⟩ := exists_cells_of_load ht
  rw [hcells, Array.getElem?_append_left hi]

theorem Tape.size_le_of_load {t t' : Tape} (ht : t.load image = .ok t') :
    image.size ≤ t'.capacity := by
  obtain ⟨zeros, hcells⟩ := exists_cells_of_load ht
  rw [capacity, hcells, Array.size_append]
  exact Nat.le_add_right _ _

/-- The bytes that a line shows stand on a tape with the image. -/
theorem Listing.Shows.holds {t t' : Tape} (h : l.Shows image) (ht : t.load image = .ok t') :
    t'.Holds l.address l.bytes := by
  intro j hj
  have hfits := h.fits
  rw [h.length_bytes] at hj
  rw [Tape.getElem?_of_load ht (by omega), h.bytes_eq, List.getElem?_take_of_lt hj,
    List.getElem?_drop, Array.getElem?_toList]

namespace Machine

variable {config : Config} {m : Machine} {κ : Type} [Console κ] {c : κ}

/-- The machine with its instruction pointer at an address. -/
def placedAt (m : Machine) (address : Nat) : Machine := { m with ip := address }

theorem Conforms.placedAt {address : Nat} (h : m.Conforms config)
    (ha : address ≤ m.tape.capacity) : (m.placedAt address).Conforms config where
  capacity_eq := h.capacity_eq
  limit_eq := h.limit_eq
  ip_le := ha
  depth_le := h.depth_le

/-- An instruction that stands on the tape with its immediate finds it there. -/
theorem readImmediate_of_holds (h : m.tape.Holds m.ip (op.byte :: v.encode)) :
    m.readImmediate = .ok v := by
  have hword : m.tape.word (m.ip + 1) = v := by
    refine Tape.word_of_encode fun j hj => ?_
    have hbyte := h (j + 1) (Nat.succ_lt_succ hj)
    rwa [List.getElem?_cons_succ, Nat.add_comm j 1, ← Nat.add_assoc] at hbyte
  have hlast : m.tape.cells[m.ip + Word.width]? = v.encode[3]? := h 4 (Nat.le_refl 5)
  obtain ⟨hlt, -⟩ := Array.getElem?_eq_some_iff.1 hlast
  rw [readImmediate, Tape.readWord_of_le (by unfold Tape.capacity; omega), hword]

/-- The opcode that a machine fetches is that of the image. -/
theorem fetches_placedAt_iff {t : Tape} {address : Nat} (ht : t.load image = .ok m.tape)
    (ha : address < image.size) :
    (m.placedAt address).Fetches op ↔ image[address]?.bind Opcode.ofByte? = some op := by
  have hget := Tape.getElem?_of_load ht ha
  rw [Array.getElem?_eq_getElem ha] at hget ⊢
  obtain ⟨hlt, -⟩ := Array.getElem?_eq_some_iff.1 hget
  have hcell : m.tape.cell address = image[address] := by
    rw [Tape.cell, Array.getD_eq_getD_getElem?, hget, Option.getD_some]
  simp only [Fetches, placedAt, hcell, Option.bind_some]
  exact and_iff_right hlt

/-! ### Bytes that start no instruction -/

/-- Whatever goes astray on an empty stack is a jump, and so a matter of one byte. -/
theorem width_of_objection {a : Int} {width capacity : Nat} (hd : m.stack.depth = 0)
    (ht : m.truncated? op = none) (ho : m.objection? op = some (.bounds a width capacity)) :
    width = 1 := by
  simp only [objection?, ht, Option.none_or, Option.or_eq_some_iff] at ho
  rcases ho with h | ⟨hu, h | ⟨-, h | ⟨-, h⟩⟩⟩
  · cases (Option.ite_none_right_eq_some.1 h).2
  · rw [underflow?_eq_none_iff, hd, Nat.le_zero] at hu
    obtain ⟨⟨target, length⟩, hreach, -⟩ := Option.bind_eq_some_iff.1 h
    have hlength : length = 1 := by
      cases op with
      | jump => cases hreach; rfl
      | jumpIf b =>
        simp only [reach?] at hreach
        split_ifs at hreach
        cases hreach
        rfl
      | load | store | call | ret | printString | readString => cases hu
      | _ => cases hreach
    rw [stray?_of_reach?_eq_some hreach, hlength, Tape.stray?, if_neg (by decide)] at h
    cases (Option.ite_none_right_eq_some.1 h).2
    rfl
  · cases (Option.ite_none_right_eq_some.1 h).2
  · cases (Option.ite_none_right_eq_some.1 h).2

/-- A complete instruction that faults on an empty stack does not miss its immediate. -/
theorem status_step_ne_bounds {a : Int} {capacity : Nat} (hm : m.WithinLimits)
    (hs : m.status = .running) (hd : m.stack.depth = 0) (hf : m.Fetches op)
    (hfit : m.ip + op.size ≤ m.tape.capacity) :
    (m.step c).1.status ≠ .faulted (.bounds a Word.width capacity) := by
  intro hfault
  have ht := transition_step hm hs c
  generalize m.step c = r at hfault ht
  cases ht with
  | runsOff => cases hfault
  | unknown => cases hfault
  | objected hf' ho =>
    cases hf.unique hf'
    cases hfault
    cases width_of_objection hd (truncated?_eq_none_iff.2 fun _ => hfit) ho
  | committed => exact status_ne_running_of_commit hfault hs
  | answered => exact status_ne_running_of_commit hfault hs
  | @refused _ _ _ e => cases e <;> cases hfault

/-- On an empty stack, the opcode is found unknown or its immediate missing exactly when no
instruction ends on the tape. -/
theorem undecodable_iff (hm : m.WithinLimits) (hs : m.status = .running) (hd : m.stack.depth = 0)
    (hip : m.ip < m.tape.capacity) :
    (m.FaultsWith c .unknownOpcode ∨
      ∃ capacity, (m.step c).1.status = .faulted (.bounds (m.ip + 1) Word.width capacity)) ↔
      ∀ op, ¬ (m.Fetches op ∧ m.ip + op.size ≤ m.tape.capacity) := by
  rw [faultsWith_unknownOpcode_iff hm hs hip]
  cases hb : Opcode.ofByte? (m.tape.cell m.ip) with
  | none =>
    refine iff_of_true (.inl rfl) ?_
    rintro op ⟨hf, -⟩
    cases hb.symm.trans hf.2
  | some op =>
    have hf : m.Fetches op := ⟨hip, hb⟩
    by_cases hfit : m.ip + op.size ≤ m.tape.capacity
    · refine iff_of_false ?_ fun h => h op ⟨hf, hfit⟩
      rintro (h | ⟨capacity, h⟩)
      · cases h
      · exact status_step_ne_bounds hm hs hd hf hfit h
    · refine iff_of_true (.inr ⟨m.tape.capacity, ?_⟩) ?_
      · have himm : op.hasImmediate = true := by
          cases h : op.hasImmediate with
          | true => rfl
          | false =>
            have hsize := Opcode.size_of_not_hasImmediate h
            omega
        rw [step_of_objection hm hs hf (objection?_of_truncated himm (Nat.not_le.1 hfit))]
        rfl
      · rintro op' ⟨hf', hfit'⟩
        rw [hf.unique hf'] at hfit
        exact hfit hfit'

/-! ### Machines at a line -/

variable {t : Tape}

/-- A line has the opcode that a machine there fetches, unless the instruction does not end in the
range. -/
theorem opcode_eq_some_iff_fetches (hstop : stop ≤ image.size)
    (hl : l ∈ listFrom image stop start) (ht : t.load image = .ok m.tape) :
    l.opcode = some op ↔ (m.placedAt l.address).Fetches op ∧ l.address + op.size ≤ stop := by
  have hlt := Nat.lt_of_lt_of_le (address_lt_of_mem_listFrom hl) hstop
  rw [fetches_placedAt_iff ht hlt, opcode_eq_some_iff hl]

/-- The operand of a line is the immediate of a machine there. -/
theorem operand_of_shows (h : l.Shows image) (ht : t.load image = .ok m.tape)
    (hop : l.opcode = some op) :
    (op.hasImmediate = true →
      ∃ v, l.operand = some v ∧ (m.placedAt l.address).readImmediate = .ok v) ∧
    (op.hasImmediate = false → l.operand = none) := by
  have hsome := h.isSome_operand op hop
  refine ⟨fun himm => ?_, fun himm => ?_⟩
  · obtain ⟨v, hv⟩ := Option.isSome_iff_exists.1 (hsome.trans himm)
    have hbytes : l.bytes = op.byte :: v.encode := by
      simp [Listing.bytes, hop, hv]
    have hholds := h.holds ht
    rw [hbytes] at hholds
    exact ⟨v, hv, readImmediate_of_holds hholds⟩
  · exact Option.isNone_iff_eq_none.1 (Option.isSome_eq_false_iff.1 (hsome.trans himm))

/-- Where tape and listing both end with the image, a line without an opcode is one that a machine
with an empty stack cannot decode. -/
theorem opcode_eq_none_iff (hl : l ∈ listFrom image image.size start)
    (ht : t.load image = .ok m.tape) (hm : (m.placedAt l.address).WithinLimits)
    (hs : m.status = .running) (hd : m.stack.depth = 0) (hcap : m.tape.capacity = image.size) :
    l.opcode = none ↔
      (m.placedAt l.address).FaultsWith c .unknownOpcode ∨
      ∃ capacity, ((m.placedAt l.address).step c).1.status =
        .faulted (.bounds (l.address + 1) Word.width capacity) := by
  have hlt : l.address < m.tape.capacity := hcap ▸ address_lt_of_mem_listFrom hl
  refine Iff.trans ?_ (undecodable_iff hm hs hd hlt).symm
  rw [Option.eq_none_iff_forall_ne_some]
  refine forall_congr' fun op => not_congr ?_
  rw [opcode_eq_some_iff_fetches (Nat.le_refl _) hl ht]
  exact and_congr_right' (by rw [← hcap]; rfl)

end Machine

/-- **A listing is what machines execute.**  The lines of a listing lie side by side.  A machine
that has loaded the image and is placed at a line fetches the opcode that the line has, and reads
the operand of the line as the immediate.  A line has no opcode only where there is none, or where
the instruction does not end in the range; if the range and the tape end with the image, that is
where the machine, whose stack is empty, finds the opcode unknown or its immediate missing. -/
theorem listing_matches_machine {κ : Type} [Console κ] (image : Array UInt8) (start stop : Nat) :
    Tiles (disassemble image start stop) start (min stop image.size) ∧
    ∀ (config : Config) (m loaded : Machine), Machine.Reachable config m →
      m.load image = .ok loaded → ∀ l ∈ disassemble image start stop,
        (∀ op, l.opcode = some op ↔
          (loaded.placedAt l.address).fetch = .ok (some op) ∧
            l.address + op.size ≤ min stop image.size) ∧
        (∀ op, l.opcode = some op →
          (op.hasImmediate = true →
            ∃ v, l.operand = some v ∧ (loaded.placedAt l.address).readImmediate = .ok v) ∧
          (op.hasImmediate = false → l.operand = none)) ∧
        (m.tape.capacity = image.size → image.size ≤ stop → ∀ c : κ,
          l.opcode = none ↔
            (loaded.placedAt l.address).FaultsWith c .unknownOpcode ∨
            ∃ capacity, ((loaded.placedAt l.address).step c).1.status =
              .faulted (.bounds (l.address + 1) Word.width capacity)) := by
  have hstop : min stop image.size ≤ image.size := Nat.min_le_right _ _
  refine ⟨tiles_listFrom hstop start, fun config m loaded hreach hload l hl => ?_⟩
  have hconforms := hreach.conforms.load hload
  obtain ⟨tape, ht, rfl⟩ := Machine.exists_restart_of_load hload
  have hsize : image.size ≤ tape.capacity := Tape.size_le_of_load ht
  have hlt : l.address < image.size :=
    Nat.lt_of_lt_of_le (address_lt_of_mem_listFrom hl) hstop
  have hm := (hconforms.placedAt (Nat.le_of_lt (Nat.lt_of_lt_of_le hlt hsize))).withinLimits
  refine ⟨fun op => ?_, fun op => Machine.operand_of_shows (shows_of_mem_listFrom hstop hl) ht, ?_⟩
  · rw [← Machine.fetches_iff hm]
    exact Machine.opcode_eq_some_iff_fetches hstop hl ht
  · intro hfull hend c
    rw [disassemble, Nat.min_eq_right hend] at hl
    exact Machine.opcode_eq_none_iff hl ht hm rfl rfl ((Tape.capacity_of_load ht).trans hfull)

/-- A push, and a jump whose destination has lost its last two bytes: the listing ends with the byte
of the jump, and the machine cannot read the destination. -/
theorem listing_matches_machine_cut_jump :
    ∃ m loaded : Machine, Machine.Reachable { tapeCapacity := 8 } m ∧
      m.load #[0x01, 7, 0, 0, 0, 0x10, 1, 0] = .ok loaded ∧ m.tape.capacity = 8 ∧
      ⟨0, 0x01, some .push, some 7⟩ ∈ disassemble #[0x01, 7, 0, 0, 0, 0x10, 1, 0] 0 8 ∧
      ⟨5, 0x10, none, none⟩ ∈ disassemble #[0x01, 7, 0, 0, 0, 0x10, 1, 0] 0 8 ∧
      (loaded.placedAt 0).fetch = .ok (some .push) ∧
      ((loaded.placedAt 5).FaultsWith (Script.ofLines []) .unknownOpcode ∨
        ∃ capacity, ((loaded.placedAt 5).step (Script.ofLines [])).1.status =
          .faulted (.bounds 6 Word.width capacity)) := by
  have hlines : disassemble #[0x01, 7, 0, 0, 0, 0x10, 1, 0] 0 8 =
      [⟨0, 0x01, some .push, some 7⟩, ⟨5, 0x10, none, none⟩] := by
    decide +kernel
  obtain ⟨-, h⟩ := listing_matches_machine (κ := Script) #[0x01, 7, 0, 0, 0, 0x10, 1, 0] 0 8
  have h' := h { tapeCapacity := 8 } (.new { tapeCapacity := 8 }) _ .new (by rfl)
  have hfirst := h' ⟨0, 0x01, some .push, some 7⟩ (by simp [hlines])
  have hlast := h' ⟨5, 0x10, none, none⟩ (by simp [hlines])
  exact ⟨_, _, .new, by rfl, by rfl, by simp [hlines], by simp [hlines], ((hfirst.1 .push).1 rfl).1,
    (hlast.2.2 (by rfl) (by decide) (Script.ofLines [])).1 rfl⟩

end TapeMachine
