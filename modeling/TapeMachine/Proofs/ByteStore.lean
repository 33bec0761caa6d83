import TapeMachine.Proofs.Calls
import TapeMachine.Proofs.Frames

/-!
# The tape as a byte store

A tape is used through a sequence of operations (`Tape.Operation`): loads, checks, reads and writes
of bytes, words and slices.  `Tape.perform` does one of them, in place.  What the operations are to
do is said here without the array behind the tape:

* `Tape.Operation.span` is the range of addresses that an operation touches.  It may be done
  (`Tape.Operation.Fits`) if that range lies on the tape, in arithmetic without a limit;
* `Tape.Operation.emission?` is what it writes, as an `Assembly.Emission`, so that the byte at an
  address is the last one that was written there (`Assembly.lastByte?`), whatever the operations
  that wrote it and however they overlap;
* `Tape.Operation.Answered` is what it answers, given the byte at every address.

A tape does all of that after every history (`Tape.tape_keeps_latest_writes`).
-/

namespace TapeMachine

namespace Tape

open Assembly (Emission lastByte? lastByte?_cons)

/-! ### Operations -/

/-- Something that is done with a tape. -/
inductive Operation
  | load (image : Array UInt8)
  | check (start width : Nat)
  | address (value : Word) (width : Nat)
  | readByte (start : Nat)
  | readWord (start : Nat)
  | readSlice (start length : Nat)
  | writeByte (start : Nat) (value : UInt8)
  | writeWord (start : Nat) (value : Word)
  | writeSlice (start : Nat) (data : List UInt8)

/-- What an operation answers when it succeeds. -/
inductive Answer
  | done
  | range (start stop : Nat)
  | address (start : Nat)
  | byte (value : UInt8)
  | word (value : Word)
  | bytes (data : List UInt8)

/-- Answer what has been looked up on the tape. -/
def answering {α : Type} (t : Tape) (answer : α → Answer) :
    Except Fault α → Except Fault Answer × Tape
  | .ok a => (.ok (answer a), t)
  | .error e => (.error e, t)

/-- Go on with the tape that a write has made, if it has made one. -/
def replacing (t : Tape) : Except Fault Tape → Except Fault Answer × Tape
  | .ok t' => (.ok .done, t')
  | .error e => (.error e, t)

/-- Do an operation: its answer, and the tape as it is afterwards. -/
def perform (t : Tape) : Operation → Except Fault Answer × Tape
  | .load image => t.replacing (t.load image)
  | .check start width => t.answering (fun r => .range r.1 r.2) (t.check start width)
  | .address value width => t.answering .address (t.address value width)
  | .readByte start => t.answering .byte (t.readByte start)
  | .readWord start => t.answering .word (t.readWord start)
  | .readSlice start length => t.answering .bytes (t.readSlice start length)
  | .writeByte start value => t.replacing (t.writeByte start value)
  | .writeWord start value => t.replacing (t.writeWord start value)
  | .writeSlice start data => t.replacing (t.writeSlice start data)

/-- Do one operation after the other, whether they succeed or not. -/
def performAll (t : Tape) (history : List Operation) : Tape :=
  history.foldl (fun t op => (t.perform op).2) t

namespace Operation

/-- The first address that an operation touches, and the number of bytes from there on. -/
def span : Operation → Int × Nat
  | load image => (0, image.size)
  | check start width | readSlice start width => (start, width)
  | address value width => (value.toInt, width)
  | readByte start | writeByte start _ => (start, 1)
  | readWord start | writeWord start _ => (start, 4)
  | writeSlice start data => (start, data.length)

/-- All that an operation touches lies on a tape of the given capacity. -/
def Fits (op : Operation) (capacity : Nat) : Prop :=
  0 ≤ op.span.1 ∧ op.span.1 + op.span.2 ≤ capacity

instance (op : Operation) (capacity : Nat) : Decidable (op.Fits capacity) :=
  inferInstanceAs (Decidable (_ ∧ _))

/-- The fault of an operation that does not fit.  Addresses are reported as signed numbers of 64
bits. -/
def refusal (capacity : Nat) : Operation → Fault
  | load image => .imageTooLong image.size capacity
  | op => .bounds (Int.bmod op.span.1 UInt64.size) op.span.2 capacity

/-- What an operation writes on a tape of the given capacity.  A load writes zeros behind the
image. -/
def emission? (capacity : Nat) : Operation → Option Emission
  | load image => some ⟨0, image.toList ++ List.replicate (capacity - image.size) 0⟩
  | writeByte start value => some ⟨start, [value]⟩
  | writeWord start value => some ⟨start, value.encode⟩
  | writeSlice start data => some ⟨start, data⟩
  | _ => none

/-- What an operation that succeeds answers on a tape that has the byte `content i` at every address
`i`.  A word is the signed value of its four bytes, least significant first. -/
def Answered (content : Nat → UInt8) : Operation → Answer → Prop
  | check start width, answer => answer = .range start (start + width)
  | address value _, answer => answer = .address value.toInt.toNat
  | readByte start, answer => answer = .byte (content start)
  | readWord start, answer => ∃ v : Word, answer = .word v ∧
      v.toInt = Int.bmod ((content start).toNat + 256 * (content (start + 1)).toNat +
        65536 * (content (start + 2)).toNat + 16777216 * (content (start + 3)).toNat) 4294967296
  | readSlice start length, answer =>
    answer = .bytes ((List.range length).map fun k => content (start + k))
  | _, answer => answer = .done

/-- What an operation writes on a tape of the given capacity, if it may be done there. -/
def written? (capacity : Nat) (op : Operation) : Option Emission :=
  if op.Fits capacity then op.emission? capacity else none

end Operation

/-- What the operations of a history write, those that fail left out. -/
def writesOf (capacity : Nat) (history : List Operation) : List Emission :=
  history.filterMap (·.written? capacity)

/-- The byte that a history leaves at the address `i` of a blank tape: the last one that is written
there, and zero if there is none. -/
def contentOf (capacity : Nat) (history : List Operation) (i : Nat) : UInt8 :=
  (lastByte? (writesOf capacity history) i).getD 0

/-! ### One operation -/

variable {t : Tape} {op : Operation} {start width capacity : Nat} {data : List UInt8}
  {v : Word}

theorem Operation.fits_iff (h : op.span = ((start : Int), width)) :
    op.Fits capacity ↔ start + width ≤ capacity := by
  rw [Fits, h]
  omega

theorem writeSlice_of_le (h : start + data.length ≤ t.capacity) :
    t.writeSlice start data = .ok (t.put start data) := by
  rw [writeSlice, check_of_le h]
  rfl

/-- A load is a write over the whole tape. -/
theorem load_of_le {image : Array UInt8} (h : image.size ≤ t.capacity) :
    t.load image =
      .ok (t.put 0 (image.toList ++ List.replicate (t.capacity - image.size) 0)) := by
  have hlength : t.cells.toList.length =
      (image.toList ++ List.replicate (t.capacity - image.size) (0 : UInt8)).length := by
    rw [List.length_append, Array.length_toList, Array.length_toList, List.length_replicate]
    unfold capacity at h ⊢
    omega
  have hall := overwrite_append [] [] hlength
  rw [List.nil_append, List.append_nil, List.nil_append, List.append_nil] at hall
  rw [load, if_pos h, put, Except.ok.injEq, Tape.mk.injEq]
  refine Eq.trans ?_ hall.symm
  simp

/-- The bytes of a slice, one by one. -/
theorem slice_eq_map (h : start + width ≤ t.capacity) :
    t.slice start width = (List.range width).map fun k => t.cell (start + k) := by
  refine List.ext_getElem? fun k => ?_
  unfold capacity at h
  rw [slice, Array.getElem?_toList, Array.getElem?_extract, List.getElem?_map]
  by_cases hk : k < width
  · rw [if_pos (by omega), List.getElem?_range hk, Option.map_some, cell,
      Array.getD_eq_getD_getElem?, Array.getElem?_eq_getElem (by omega), Option.getD_some]
  · rw [if_neg (by omega), List.getElem?_eq_none (by simpa using hk), Option.map_none]

theorem toInt_word (t : Tape) (start : Nat) :
    (t.word start).toInt =
      Int.bmod ((t.cell start).toNat + 256 * (t.cell (start + 1)).toNat +
        65536 * (t.cell (start + 2)).toNat + 16777216 * (t.cell (start + 3)).toNat) 4294967296 := by
  rw [word, Word.ofBytes, Int32.toInt_ofNat']
  rfl

/-- An operation that fits succeeds, and leaves what it writes on the tape. -/
theorem perform_of_fits (h : op.Fits t.capacity) :
    ∃ answer, op.Answered t.cell answer ∧
      t.perform op =
        (.ok answer, (op.emission? t.capacity).elim t fun e => t.put e.address e.data) := by
  cases op with
  | load image =>
    have hle : 0 + image.size ≤ t.capacity := (Operation.fits_iff rfl).1 h
    refine ⟨.done, rfl, ?_⟩
    rw [perform, load_of_le (by omega)]
    rfl
  | check start width =>
    refine ⟨_, rfl, ?_⟩
    rw [perform, check_of_le ((Operation.fits_iff rfl).1 h)]
    rfl
  | address value width =>
    have hin : t.stray? value width = none := stray?_eq_none_iff.2 ⟨Int.natCast_nonneg _, h⟩
    refine ⟨_, rfl, ?_⟩
    rw [perform, address_of_stray?_eq_none hin]
    rfl
  | readByte start =>
    refine ⟨_, rfl, ?_⟩
    rw [perform, readByte_of_lt ((Operation.fits_iff rfl).1 h)]
    rfl
  | readWord start =>
    refine ⟨_, ⟨t.word start, rfl, toInt_word t start⟩, ?_⟩
    rw [perform, readWord_of_le ((Operation.fits_iff rfl).1 h)]
    rfl
  | readSlice start length =>
    have hle := (Operation.fits_iff rfl).1 h
    refine ⟨_, rfl, ?_⟩
    rw [perform, readSlice_of_le hle, slice_eq_map hle]
    rfl
  | writeByte start value =>
    have hle : start + [value].length ≤ t.capacity := (Operation.fits_iff rfl).1 h
    refine ⟨.done, rfl, ?_⟩
    rw [perform, writeByte, writeSlice_of_le hle]
    rfl
  | writeWord start value =>
    have hle : start + value.encode.length ≤ t.capacity := (Operation.fits_iff rfl).1 h
    refine ⟨.done, rfl, ?_⟩
    rw [perform, writeWord, writeSlice_of_le hle]
    rfl
  | writeSlice start data =>
    refine ⟨.done, rfl, ?_⟩
    rw [perform, writeSlice_of_le ((Operation.fits_iff rfl).1 h)]
    rfl

/-- An operation that does not fit is refused, and the tape stays as it is. -/
theorem perform_of_not_fits (h : ¬ op.Fits t.capacity) :
    t.perform op = (.error (op.refusal t.capacity), t) := by
  have hlt : ∀ {start width : Nat}, op.span = ((start : Int), width) →
      t.capacity < start + width := fun hspan =>
    Nat.lt_of_not_le (mt (Operation.fits_iff hspan).2 h)
  cases op with
  | load image =>
    have hlong : t.capacity < 0 + image.size := hlt rfl
    rw [perform, load, if_neg (by omega)]
    rfl
  | address value width =>
    have hlow := value.le_toInt
    have hhigh := value.toInt_lt
    have hsize : (UInt64.size : Int) = 18446744073709551616 := rfl
    have hreported : Int.bmod value.toInt UInt64.size = value.toInt :=
      Int.bmod_eq_of_le (by omega) (by omega)
    have hout : t.stray? value width = some (t.outside value.toInt width) := by
      have hnot : ¬ (0 ≤ value.toInt ∧ value.toInt + width ≤ t.capacity) := h
      rw [stray?, if_neg (by omega), if_pos (by omega), Int.toNat_natCast]
    rw [perform, address_of_stray?_eq_some hout, Operation.refusal, Operation.span, hreported]
    · rfl
    · intro image himage
      cases himage
  | check start width =>
    rw [perform, check_of_lt (hlt rfl)]
    rfl
  | readByte start =>
    rw [perform, readByte, check_of_lt (hlt rfl)]
    rfl
  | readWord start =>
    rw [perform, readWord_of_lt (hlt rfl)]
    rfl
  | readSlice start length =>
    rw [perform, readSlice, check_of_lt (hlt rfl)]
    rfl
  | writeByte start value =>
    have hout : t.capacity < start + [value].length := hlt rfl
    rw [perform, writeByte, writeSlice, check_of_lt hout]
    rfl
  | writeWord start value =>
    have hout : t.capacity < start + value.encode.length := hlt rfl
    rw [perform, writeWord, writeSlice, check_of_lt hout]
    rfl
  | writeSlice start data =>
    rw [perform, writeSlice, check_of_lt (hlt rfl)]
    rfl

/-- What is written by an operation that fits lies on the tape. -/
theorem Operation.stop_le {e : Emission} (h : op.Fits capacity)
    (he : op.emission? capacity = some e) : e.stop ≤ capacity := by
  cases op with
  | load image =>
    have hle : 0 + image.size ≤ capacity := (fits_iff rfl).1 h
    cases he
    simp only [Emission.stop, List.length_append, Array.length_toList, List.length_replicate]
    omega
  | writeByte start value | writeWord start value | writeSlice start data =>
    cases he
    exact (fits_iff rfl).1 h
  | check | address | readByte | readWord | readSlice => cases he

/-- The tape after an operation, whether it has succeeded or not. -/
theorem tape_perform (t : Tape) (op : Operation) :
    (t.perform op).2 = (op.written? t.capacity).elim t fun e => t.put e.address e.data := by
  by_cases h : op.Fits t.capacity
  · obtain ⟨answer, -, heq⟩ := perform_of_fits h
    rw [heq, Operation.written?, if_pos h]
  · rw [perform_of_not_fits h, Operation.written?, if_neg h]
    rfl

@[simp] theorem capacity_perform (t : Tape) (op : Operation) :
    (t.perform op).2.capacity = t.capacity := by
  rw [tape_perform]
  cases op.written? t.capacity with
  | none => rfl
  | some e => exact capacity_put t e.address e.data

/-- The byte at an address after a write. -/
theorem cell_put {e : Emission} (h : e.stop ≤ t.capacity) (i : Nat) :
    (t.put e.address e.data).cell i = (e.byteAt? i).getD (t.cell i) := by
  have hplace : Emission.write t.cells e = overwrite t.cells e.address e.data := by
    have hgap : e.address + e.data.length - t.cells.size = 0 := Nat.sub_eq_zero_of_le h
    rw [Emission.write, Assembly.place, hgap, Array.replicate_zero, Array.append_empty]
  rw [cell, put, ← hplace, Emission.getD_write]
  rfl

/-- A word is read back from where it was written. -/
theorem perform_readWord (h : (Operation.writeWord start v).Fits t.capacity) :
    ((t.perform (.writeWord start v)).2.perform (.readWord start)).1 = .ok (.word v) := by
  have hle : start + v.encode.length ≤ t.capacity := (Operation.fits_iff rfl).1 h
  have hword : (t.put start v.encode).word start = v := word_of_encode (rewritten_put hle).holds
  rw [tape_perform, Operation.written?, if_pos h]
  change ((t.put start v.encode).answering .word ((t.put start v.encode).readWord start)).1 = _
  rw [readWord_of_le (by rwa [capacity_put]), hword]
  rfl

/-! ### Histories -/

theorem performAll_cons (t : Tape) (op : Operation) (history : List Operation) :
    t.performAll (op :: history) = (t.perform op).2.performAll history := rfl

theorem capacity_performAll (t : Tape) (history : List Operation) :
    (t.performAll history).capacity = t.capacity := by
  induction history generalizing t with
  | nil => rfl
  | cons op history ih => rw [performAll_cons, ih, capacity_perform]

/-- After any history, the byte at an address is the last one that was written there. -/
theorem cell_performAll (t : Tape) (history : List Operation) (i : Nat) :
    (t.performAll history).cell i =
      (lastByte? (writesOf t.capacity history) i).getD (t.cell i) := by
  induction history generalizing t with
  | nil => rfl
  | cons op history ih =>
    rw [performAll_cons, ih, capacity_perform, tape_perform, writesOf, writesOf,
      List.filterMap_cons]
    cases hw : op.written? t.capacity with
    | none => rfl
    | some e =>
      obtain ⟨hfits, he⟩ := Option.ite_none_right_eq_some.1 hw
      rw [Option.elim_some, cell_put (Operation.stop_le hfits he)]
      simp only [lastByte?_cons]
      cases lastByte? (history.filterMap (·.written? t.capacity)) i <;> rfl

theorem cell_blank (capacity i : Nat) : (blank capacity).cell i = 0 := by
  rw [cell, blank, Array.getD_eq_getD_getElem?, Array.getElem?_replicate]
  split <;> rfl

theorem cell_history (capacity : Nat) (history : List Operation) :
    ((blank capacity).performAll history).cell = contentOf capacity history := by
  funext i
  rw [cell_performAll, cell_blank, capacity_blank, contentOf]

/-- The bytes of a tape, one by one. -/
theorem toList_cells (t : Tape) : t.cells.toList = (List.range t.capacity).map t.cell := by
  have hslice := slice_eq_map (t := t) (Nat.le_of_eq (Nat.zero_add t.capacity))
  simpa [slice, capacity] using hslice

/-- On a tape that 64 bits can address, the end of a range is no address exactly if the sum of 64
bits wraps around, and it is that sum otherwise. -/
theorem stop?_toNat (start width : UInt64) (h : t.capacity < UInt64.size) :
    t.stop? start.toNat width.toNat =
      if start ≤ start + width then some (start + width).toNat else none := by
  have hsize : UInt64.size = 18446744073709551616 := rfl
  have hstart := start.toNat_lt
  have hwidth := width.toNat_lt
  have hmax : t.maxAddress = 18446744073709551615 := Nat.max_eq_left (Nat.le_sub_one_of_lt h)
  by_cases hsum : start.toNat + width.toNat ≤ 18446744073709551615
  · have hexact : (start + width).toNat = start.toNat + width.toNat := by
      rw [UInt64.toNat_add]
      exact Nat.mod_eq_of_lt (by omega)
    have hle : start ≤ start + width := by
      rw [UInt64.le_iff_toNat_le, hexact]
      exact Nat.le_add_right _ _
    rw [stop?, hmax, if_pos hsum, if_pos hle, hexact]
  · have hwraps : ¬ start ≤ start + width := by
      rw [UInt64.le_iff_toNat_le, UInt64.toNat_add]
      omega
    rw [stop?, hmax, if_neg hsum, if_neg hwraps]

/-- In arithmetic of 64 bits, a range lies on a tape if its end neither wraps around nor lies behind
the end of the tape. -/
theorem check_eq_ok_iff {start width : UInt64} (h : t.capacity < UInt64.size) :
    (∃ range, t.check start.toNat width.toNat = .ok range) ↔
      start ≤ start + width ∧ (start + width).toNat ≤ t.capacity := by
  rw [check, stop?_toNat start width h]
  by_cases hsum : start ≤ start + width
  · rw [if_pos hsum]
    by_cases hle : (start + width).toNat ≤ t.capacity
    · exact iff_of_true ⟨_, if_pos hle⟩ ⟨hsum, hle⟩
    · refine iff_of_false ?_ fun hon => hle hon.2
      rintro ⟨range, hrange⟩
      cases (if_neg hle).symm.trans hrange
  · rw [if_neg hsum]
    refine iff_of_false ?_ fun hon => hsum hon.1
    rintro ⟨range, hrange⟩
    cases hrange

/-- **A tape keeps the latest writes.**  Whatever has been done with a blank tape, it has its
capacity and at every address the last byte that was written there.  An operation succeeds exactly
if all that it touches lies on the tape: it then answers what these bytes say, and the tape has what
it writes in place of as many bytes and is the same everywhere else.  An operation that does not fit
is refused with its address and its width, and leaves the tape as it is.  A check of 64-bit numbers
is not fooled by a sum that wraps around. -/
theorem tape_keeps_latest_writes (capacity : Nat) (history : List Operation) :
    let t := (blank capacity).performAll history
    let content := contentOf capacity history
    t.capacity = capacity ∧ t.cells.toList = (List.range capacity).map content ∧
    (∀ op : Operation, op.Fits capacity →
      (∃ answer, (t.perform op).1 = .ok answer ∧ op.Answered content answer) ∧
      (op.emission? capacity = none → (t.perform op).2 = t) ∧
      ∀ e, op.emission? capacity = some e →
        t.Rewritten (t.perform op).2 e.address e.data) ∧
    (∀ op : Operation, ¬ op.Fits capacity →
      t.perform op = (.error (op.refusal capacity), t)) ∧
    (∀ start value, (Operation.writeWord start value).Fits capacity →
      ((t.perform (.writeWord start value)).2.perform (.readWord start)).1 = .ok (.word value)) ∧
    ∀ start width : UInt64, capacity < UInt64.size →
      ((∃ range, t.check start.toNat width.toNat = .ok range) ↔
        start ≤ start + width ∧ (start + width).toNat ≤ capacity) := by
  intro t content
  have hcapacity : t.capacity = capacity := by
    rw [capacity_performAll, capacity_blank]
  have hcontent : t.cell = content := cell_history capacity history
  refine ⟨hcapacity, ?_, fun op hfits => ?_, fun op hout => ?_, fun start value hfits => ?_,
    fun start width hsize => ?_⟩
  · rw [toList_cells, hcapacity, hcontent]
  · obtain ⟨answer, hanswer, hperform⟩ := perform_of_fits (hcapacity.symm ▸ hfits)
    rw [hcontent] at hanswer
    rw [hcapacity] at hperform
    rw [hperform]
    refine ⟨⟨answer, rfl, hanswer⟩, fun hnone => ?_, fun e he => ?_⟩
    · rw [hnone]
      rfl
    · rw [he]
      exact rewritten_put (hcapacity.symm ▸ Operation.stop_le hfits he)
  · rw [perform_of_not_fits (by rwa [hcapacity]), hcapacity]
  · exact perform_readWord (by rwa [hcapacity])
  · rw [← hcapacity] at hsize ⊢
    exact check_eq_ok_iff hsize

/-- Writes that overlap at odd addresses, and one that does not fit. -/
def overlappingHistory : List Operation :=
  [.load #[1, 2, 3], .writeWord 0 (-2), .writeSlice 6 [9, 9, 9], .writeWord 2 0x01020304,
    .writeByte 3 7]

/-- A word that is read across three writes, and an access that would wrap around to the start of
the tape. -/
theorem tape_keeps_latest_writes_overlapping :
    (Operation.readWord 1).Fits 8 ∧
      (((blank 8).performAll overlappingHistory).perform (.readWord 1)).1 =
        .ok (.word 0x020704ff) ∧
      ¬ (Operation.readWord 18446744073709551614).Fits 8 ∧
      (((blank 8).performAll overlappingHistory).perform (.readWord 18446744073709551614)).1 =
        .error (.bounds (-2) 4 8) := by
  have hfits : (Operation.readWord 1).Fits 8 := by decide
  have hout : ¬ (Operation.readWord 18446744073709551614).Fits 8 := by decide
  obtain ⟨-, -, hsucceeds, hrefused, -⟩ := tape_keeps_latest_writes 8 overlappingHistory
  obtain ⟨⟨answer, hanswer, v, rfl, hv⟩, -⟩ := hsucceeds _ hfits
  have hvalue : v = 0x020704ff := Int32.toInt_inj.1 (hv.trans (by decide))
  refine ⟨hfits, by rw [hanswer, hvalue], hout, ?_⟩
  rw [hrefused _ hout]
  rfl

end Tape

end TapeMachine
