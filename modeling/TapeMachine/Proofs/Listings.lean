import TapeMachine.Listing

/-!
# What a listing shows

Every line of a listing stands for the bytes of the image at its address (`Listing.Shows`): an
instruction with its immediate, or a single byte.  The lines follow each other without a gap, so
together they stand for one stretch of the image (`flatMap_bytes_listFrom`).
-/

namespace TapeMachine

namespace Word

variable {bytes : List UInt8} {v : Word}

theorem encode_of_decode (h : decode bytes = some v) : v.encode = bytes.take width := by
  match bytes with
  | [] | [_] | [_, _] | [_, _, _] => cases h
  | b₀ :: b₁ :: b₂ :: b₃ :: _ =>
    cases h
    exact encode_ofBytes b₀ b₁ b₂ b₃

theorem exists_decode (h : width ≤ bytes.length) : ∃ v, decode bytes = some v := by
  match bytes with
  | [] | [_] | [_, _] | [_, _, _] =>
    exfalso
    revert h
    simp [width]
  | b₀ :: b₁ :: b₂ :: b₃ :: _ => exact ⟨_, rfl⟩

end Word

variable {image : Array UInt8} {stop address : Nat} {op : Opcode} {operand : Option Word}

namespace Listing

/-- The bytes that a line stands for. -/
def bytes (l : Listing) : List UInt8 :=
  match l.opcode with
  | some op => op.byte :: l.operand.elim [] Word.encode
  | none => [l.byte]

/-- A line shows the bytes of an image at its address.  It has an immediate if its opcode does. -/
structure Shows (l : Listing) (image : Array UInt8) : Prop where
  isSome_operand : ∀ op, l.opcode = some op → l.operand.isSome = op.hasImmediate
  fits : l.address + l.size ≤ image.size
  bytes_eq : l.bytes = (image.toList.drop l.address).take l.size

theorem shows_byte (h : address < image.size) :
    Shows ⟨address, image.getD address 0, none, none⟩ image where
  isSome_operand := nofun
  fits := h
  bytes_eq := by
    have hdrop := List.drop_eq_getElem_cons (l := image.toList) (i := address) (by simpa using h)
    change [image.getD address 0] = (image.toList.drop address).take 1
    rw [hdrop, Array.getElem_toList, Array.getD_eq_getD_getElem?, Array.getElem?_eq_getElem h]
    rfl

/-- Four bytes inside an image are the encoding of a word. -/
theorem exists_decode_extract (h : address + Word.width ≤ image.size) :
    ∃ v, Word.decode (image.extract address (address + Word.width)).toList = some v ∧
      v.encode = (image.toList.drop address).take Word.width := by
  have hbytes : (image.extract address (address + Word.width)).toList =
      (image.toList.drop address).take Word.width := by
    rw [Array.toList_extract, List.extract_eq_take_drop, Nat.add_sub_cancel_left]
  have hlen : ((image.toList.drop address).take Word.width).length = Word.width := by
    rw [List.length_take_of_le]
    rw [List.length_drop, Array.length_toList]
    omega
  obtain ⟨v, hv⟩ := Word.exists_decode (Nat.le_of_eq hlen.symm)
  refine ⟨v, by rw [hbytes, hv], ?_⟩
  rw [Word.encode_of_decode hv, List.take_of_length_le (Nat.le_of_eq hlen)]

/-- An instruction that is found in an image is shown with its immediate. -/
theorem shows_instruction (hstop : stop ≤ image.size)
    (h : instructionAt? image address stop = some (op, operand)) :
    address + op.size ≤ stop ∧ Shows ⟨address, image.getD address 0, some op, operand⟩ image := by
  unfold instructionAt? at h
  split at h
  · cases h
  rename_i op' hop
  split at h
  · rename_i hfits
    obtain ⟨rfl, rfl⟩ := Prod.mk.inj (Option.some.inj h)
    obtain ⟨b, hb, hof⟩ := Option.bind_eq_some_iff.1 hop
    have hpos := op'.size_pos
    obtain ⟨hlt, hget⟩ := Array.getElem?_eq_some_iff.1 hb
    have hdrop : image.toList.drop address = op'.byte :: image.toList.drop (address + 1) := by
      rw [List.drop_eq_getElem_cons (by simpa using hlt), Array.getElem_toList, hget,
        Opcode.byte_of_ofByte? hof]
    cases himm : op'.hasImmediate with
    | false =>
      refine ⟨hfits, fun op hop' => ?_, Nat.le_trans hfits hstop, ?_⟩
      · cases hop'
        rw [himm]
        rfl
      · change op'.byte :: [] = (image.toList.drop address).take op'.size
        rw [Opcode.size_of_not_hasImmediate himm, hdrop, List.take_succ_cons, List.take_zero]
    | true =>
      have hsize := Opcode.size_of_hasImmediate himm
      have hroom : address + 1 + Word.width ≤ image.size := by omega
      obtain ⟨v, hv, hencode⟩ := exists_decode_extract hroom
      simp only [if_true, hv]
      refine ⟨hfits, fun op hop' => ?_, Nat.le_trans hfits hstop, ?_⟩
      · cases hop'
        exact himm.symm
      · change op'.byte :: v.encode = (image.toList.drop address).take op'.size
        rw [hsize, hdrop, Nat.add_comm 1, List.take_succ_cons, hencode]
  · cases h

theorem Shows.length_bytes {l : Listing} (h : l.Shows image) : l.bytes.length = l.size := by
  have hfits := h.fits
  rw [h.bytes_eq, List.length_take_of_le]
  rw [List.length_drop, Array.length_toList]
  omega

end Listing

/-- Number of bytes that lines show together. -/
def totalSize : List Listing → Nat
  | [] => 0
  | l :: ls => l.size + totalSize ls

theorem length_flatMap_bytes_of_shows {ls : List Listing} (h : ∀ l ∈ ls, l.Shows image) :
    (ls.flatMap Listing.bytes).length = totalSize ls := by
  induction ls with
  | nil => rfl
  | cons l ls ih =>
    rw [List.flatMap_cons, List.length_append, (h l List.mem_cons_self).length_bytes,
      ih fun l hl => h l (List.mem_cons_of_mem _ hl), totalSize]

/-- Every line of a listing shows the bytes of the image. -/
theorem shows_of_mem_listFrom (hstop : stop ≤ image.size) {l : Listing}
    (hl : l ∈ listFrom image stop address) : l.Shows image := by
  fun_induction listFrom image stop address with
  | case1 address hlt byte op operand hinstr hdec ih =>
    rcases List.mem_cons.1 hl with rfl | hl
    · exact (Listing.shows_instruction hstop hinstr).2
    · exact ih hl
  | case2 address hlt =>
    rw [List.mem_singleton.1 hl]
    exact Listing.shows_byte (Nat.lt_of_lt_of_le hlt hstop)
  | case3 => cases hl

/-- The lines of a listing show the bytes of the image from its first address on, without a gap. -/
theorem flatMap_bytes_listFrom (hstop : stop ≤ image.size) (address : Nat) :
    (listFrom image stop address).flatMap Listing.bytes =
      (image.toList.drop address).take (totalSize (listFrom image stop address)) := by
  fun_induction listFrom image stop address with
  | case1 address hlt byte op operand hinstr hdec ih =>
    obtain ⟨-, hshows⟩ := Listing.shows_instruction hstop hinstr
    rw [List.flatMap_cons, hshows.bytes_eq, ih, totalSize, List.take_add, List.drop_drop]
    rfl
  | case2 address hlt =>
    have hshows := Listing.shows_byte (Nat.lt_of_lt_of_le hlt hstop)
    rw [List.flatMap_singleton, hshows.bytes_eq]
    rfl
  | case3 => rfl

end TapeMachine
