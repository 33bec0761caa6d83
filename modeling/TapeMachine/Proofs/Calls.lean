import Mathlib.Data.List.Nodup
import TapeMachine.Proofs.Images

/-!
# Images as the record of calls

A builder is used through a sequence of calls (`Assembly.Call`).  What becomes of the image depends
on three records of that sequence, each in the order of the calls: what was emitted and where
(`Assembly.emissionsOf`), which places wait for the address of a label (`Assembly.referencesOf`) and
which labels were bound to which address (`Assembly.bindingsOf`).  A builder keeps to these records
(`Assembly.Builder.records_ofCalls`), in whatever way the calls move the cursor about.

* Writing one emission after the other leaves, at every address, the last byte that was written
  there, and zero where none was (`Assembly.getD_foldl_write`);
* finishing is writing once more, over the places that wait for an address, so the addresses of
  labels win over all bytes, and the last reference over those before
  (`Assembly.finished_image_bytes`).
-/

namespace TapeMachine

namespace Assembly

/-! ### Emissions -/

/-- Bytes that are written at an address. -/
structure Emission where
  /-- The address of the first byte. -/
  address : Nat
  /-- The bytes. -/
  data : List UInt8

namespace Emission

/-- The address behind the last byte. -/
def stop (e : Emission) : Nat := e.address + e.data.length

/-- The byte that is written at the address `i`, if there is one. -/
def byteAt? (e : Emission) (i : Nat) : Option UInt8 :=
  if e.address ≤ i then e.data[i - e.address]? else none

/-- Write an emission into an image. -/
def write (image : Array UInt8) (e : Emission) : Array UInt8 := place image e.address e.data

variable {e : Emission} {i : Nat}

theorem byteAt?_of_mem (h : e.address ≤ i) : e.byteAt? i = e.data[i - e.address]? := if_pos h

theorem byteAt?_eq_none (h : i < e.address ∨ e.stop ≤ i) : e.byteAt? i = none := by
  unfold byteAt?
  split
  · rw [List.getElem?_eq_none_iff]
    unfold stop at h
    omega
  · rfl

/-- After a write, the byte at an address is the one written there, and the old one elsewhere. -/
theorem getD_write (image : Array UInt8) (e : Emission) (i : Nat) :
    (write image e).getD i 0 = (e.byteAt? i).getD (image.getD i 0) := by
  have hpad : ∀ k, (image ++ Array.replicate k 0).getD i 0 = image.getD i 0 := by
    intro k
    simp only [Array.getD_eq_getD_getElem?, Array.getElem?_append, Array.getElem?_replicate]
    split_ifs with h₁ h₂
    · rfl
    · rw [Array.getElem?_eq_none (Nat.not_lt.1 h₁)]
      rfl
    · rw [Array.getElem?_eq_none (Nat.not_lt.1 h₁)]
  rw [write, place, Array.getD_eq_getD_getElem?, getElem?_overwrite]
  split_ifs with h
  · have hlt : i - e.address < e.data.length := by omega
    rw [byteAt?_of_mem h.1, List.getElem?_eq_getElem hlt, Option.getD_some, Option.getD_some]
  · have hnone : e.byteAt? i = none := by
      refine byteAt?_eq_none ?_
      simp only [Array.size_append, Array.size_replicate] at h
      unfold stop
      omega
    rw [hnone, Option.getD_none, ← Array.getD_eq_getD_getElem?, hpad]

@[simp] theorem size_write (image : Array UInt8) (e : Emission) :
    (write image e).size = max image.size e.stop := size_place _ _ _

end Emission

/-- The end of the emission that reaches furthest, and zero if there is none. -/
def extent : List Emission → Nat
  | [] => 0
  | e :: es => max e.stop (extent es)

/-- The last byte that is written at the address `i`, if there is one. -/
def lastByte? (es : List Emission) (i : Nat) : Option UInt8 :=
  (es.filterMap fun e => e.byteAt? i).getLast?

variable {es es' : List Emission} {image : Array UInt8} {i : Nat}

theorem lastByte?_append (es es' : List Emission) (i : Nat) :
    lastByte? (es ++ es') i = (lastByte? es' i).or (lastByte? es i) := by
  rw [lastByte?, List.filterMap_append, List.getLast?_append]
  rfl

theorem lastByte?_cons (e : Emission) (es : List Emission) (i : Nat) :
    lastByte? (e :: es) i = (lastByte? es i).or (e.byteAt? i) := by
  have hone : lastByte? [e] i = e.byteAt? i := by
    cases h : e.byteAt? i <;> simp [lastByte?, h]
  rw [← List.singleton_append, lastByte?_append, hone]

/-- Writing one after the other leaves the last byte at every address. -/
theorem getD_foldl_write (es : List Emission) (image : Array UInt8) (i : Nat) :
    (es.foldl Emission.write image).getD i 0 = (lastByte? es i).getD (image.getD i 0) := by
  induction es generalizing image with
  | nil => rfl
  | cons e es ih =>
    rw [List.foldl_cons, ih, Emission.getD_write, lastByte?_cons]
    cases lastByte? es i <;> rfl

theorem size_foldl_write (es : List Emission) (image : Array UInt8) :
    (es.foldl Emission.write image).size = max image.size (extent es) := by
  induction es generalizing image with
  | nil => exact (Nat.max_zero _).symm
  | cons e es ih => rw [List.foldl_cons, ih, Emission.size_write, Nat.max_assoc, extent]

theorem stop_le_extent {e : Emission} (h : e ∈ es) : e.stop ≤ extent es := by
  induction es with
  | nil => cases h
  | cons e' es ih =>
    rw [extent]
    rcases List.mem_cons.1 h with rfl | hmem
    · exact Nat.le_max_left _ _
    · exact Nat.le_trans (ih hmem) (Nat.le_max_right _ _)

theorem extent_le {n : Nat} (h : ∀ e ∈ es, e.stop ≤ n) : extent es ≤ n := by
  induction es with
  | nil => exact Nat.zero_le n
  | cons e es ih =>
    exact Nat.max_le.2 ⟨h e List.mem_cons_self, ih fun e' he' => h e' (List.mem_cons_of_mem _ he')⟩

/-! ### Calls -/

/-- A call of a builder. -/
inductive Call
  | byte (value : UInt8)
  | bytes (data : List UInt8)
  | word (value : Word)
  | op (opcode : Opcode)
  | opWord (opcode : Opcode) (operand : Word)
  | string (text : String)
  | placeString (address : Nat) (text : String)
  | seek (address : Nat)
  | label (name : String)
  | wordLabel (name : String)
  | opLabel (opcode : Opcode) (name : String)

namespace Call

/-- Carry out a call. -/
def perform (b : Builder) : Call → Builder
  | byte value => b.byte value
  | bytes data => b.bytes data
  | word value => b.word value
  | op opcode => b.op opcode
  | opWord opcode operand => b.opWord opcode operand
  | string text => b.string text
  | placeString address text => b.placeString address text
  | seek address => b.seek address
  | label name => b.label name
  | wordLabel name => b.wordLabel name
  | opLabel opcode name => b.opLabel opcode name

/-- Where a call leaves the cursor. -/
def moves (cursor : Nat) : Call → Nat
  | byte _ | op _ => cursor + 1
  | bytes data => cursor + data.length
  | word _ | wordLabel _ => cursor + 4
  | opWord _ _ | opLabel _ _ => cursor + 5
  | string text => cursor + (Utf8.encode text.toList).length
  | seek address => address
  | placeString _ _ | label _ => cursor

/-- What a call emits.  A place that waits for an address is emitted as four zeros. -/
def emissions (cursor : Nat) : Call → List Emission
  | byte value => [⟨cursor, [value]⟩]
  | bytes data => [⟨cursor, data⟩]
  | word value => [⟨cursor, value.encode⟩]
  | op opcode => [⟨cursor, [opcode.byte]⟩]
  | opWord opcode operand => [⟨cursor, [opcode.byte]⟩, ⟨cursor + 1, operand.encode⟩]
  | string text => [⟨cursor, Utf8.encode text.toList⟩]
  | placeString address text => [⟨address, Utf8.encode text.toList⟩]
  | wordLabel _ => [⟨cursor, [0, 0, 0, 0]⟩]
  | opLabel opcode _ => [⟨cursor, [opcode.byte]⟩, ⟨cursor + 1, [0, 0, 0, 0]⟩]
  | seek _ | label _ => []

/-- The places that a call leaves to wait for an address. -/
def references (cursor : Nat) : Call → List Reference
  | wordLabel name => [⟨cursor, name⟩]
  | opLabel _ name => [⟨cursor + 1, name⟩]
  | _ => []

/-- The labels that a call binds, with their addresses. -/
def bindings (cursor : Nat) : Call → List (String × Nat)
  | label name => [(name, cursor)]
  | _ => []

variable {call : Call} {b : Builder}

theorem cursor_perform (b : Builder) (call : Call) :
    (call.perform b).cursor = call.moves b.cursor := by
  cases call with
  | label name =>
    simp only [perform, Builder.label]
    split <;> rfl
  | _ => rfl

theorem image_perform (b : Builder) (call : Call) :
    (call.perform b).image = (call.emissions b.cursor).foldl Emission.write b.image := by
  have hzero : (0 : Word).encode = [0, 0, 0, 0] := by decide
  cases call with
  | label name =>
    simp only [perform, Builder.label]
    split <;> rfl
  | seek | placeString => rfl
  | _ =>
    simp only [perform, emissions, Builder.byte, Builder.op, Builder.opWord, Builder.opLabel,
      Builder.wordLabel, Builder.word, Builder.string, Builder.image_bytes, Builder.cursor_bytes,
      hzero, List.foldl_cons, List.foldl_nil, Emission.write, List.length_singleton]

theorem references_perform (b : Builder) (call : Call) :
    (call.perform b).references.toList = b.references.toList ++ call.references b.cursor := by
  cases call with
  | label name =>
    simp only [perform, Builder.label]
    split <;> exact (List.append_nil _).symm
  | wordLabel | opLabel => exact Array.toList_push
  | _ => exact (List.append_nil _).symm

/-- Only a call that binds a label changes what is known of labels. -/
theorem labels_perform {b : Builder} {call : Call} (h : call.bindings b.cursor = []) :
    (call.perform b).labels = b.labels ∧ (call.perform b).duplicates = b.duplicates := by
  cases call with
  | label => cases h
  | seek | placeString => exact ⟨rfl, rfl⟩
  | _ =>
    simp only [perform, Builder.byte, Builder.op, Builder.opWord, Builder.opLabel,
      Builder.wordLabel, Builder.word, Builder.string, Builder.labels_bytes,
      Builder.duplicates_bytes, and_self]

theorem addressOf_perform (b : Builder) (call : Call) (name : String) :
    (call.perform b).addressOf name =
      (b.addressOf name).or ((call.bindings b.cursor).lookup name) := by
  cases call with
  | label other =>
    rw [perform, Builder.addressOf_label, bindings, List.lookup_cons]
    by_cases heq : other = name
    · simp [heq]
    · have hne : (name == other) = false := by simpa using Ne.symm heq
      simp [heq, hne]
  | _ =>
    rw [Builder.addressOf, (labels_perform rfl).1]
    exact (Option.or_none).symm

theorem duplicates_perform_eq_empty_iff (b : Builder) (call : Call) :
    (call.perform b).duplicates = #[] ↔
      b.duplicates = #[] ∧ ∀ x ∈ call.bindings b.cursor, b.addressOf x.1 = none := by
  cases call with
  | label name =>
    rw [perform, Builder.duplicates_label_eq_empty_iff, bindings]
    simp
  | _ =>
    rw [(labels_perform rfl).2]
    simp [bindings]

theorem nodup_bindings (call : Call) (cursor : Nat) :
    ((call.bindings cursor).map Prod.fst).Nodup := by
  cases call with
  | label name => exact List.nodup_singleton name
  | _ => exact List.nodup_nil

/-- A place that waits for an address has been emitted with the call that left it. -/
theorem placeholder_mem_emissions {cursor : Nat} {r : Reference}
    (h : r ∈ call.references cursor) :
    (⟨r.position, [0, 0, 0, 0]⟩ : Emission) ∈ call.emissions cursor := by
  cases call with
  | wordLabel | opLabel =>
    cases List.mem_singleton.1 h
    simp [emissions]
  | _ => cases h

end Call

/-! ### The records of a sequence of calls -/

/-- Where the calls leave the cursor. -/
def cursorAfter (calls : List Call) : Nat := calls.foldl Call.moves 0

/-- What one call after the other adds to a record, from the cursor it meets. -/
def recordFrom {α : Type} (f : Nat → Call → List α) : Nat → List Call → List α
  | _, [] => []
  | cursor, call :: calls => f cursor call ++ recordFrom f (call.moves cursor) calls

/-- What the calls emit. -/
def emissionsOf (calls : List Call) : List Emission := recordFrom Call.emissions 0 calls

/-- The places that the calls leave to wait for an address. -/
def referencesOf (calls : List Call) : List Reference := recordFrom Call.references 0 calls

/-- The labels that the calls bind, with their addresses. -/
def bindingsOf (calls : List Call) : List (String × Nat) := recordFrom Call.bindings 0 calls

/-- The builder that the calls make of an empty one. -/
def Builder.ofCalls (calls : List Call) : Builder := calls.foldl Call.perform .empty

section

variable {α : Type} {b : Builder} {calls : List Call}

theorem recordFrom_append (f : Nat → Call → List α) (cursor : Nat) (calls calls' : List Call) :
    recordFrom f cursor (calls ++ calls') =
      recordFrom f cursor calls ++ recordFrom f (calls.foldl Call.moves cursor) calls' := by
  induction calls generalizing cursor with
  | nil => rfl
  | cons call calls ih =>
    rw [List.cons_append, recordFrom, ih, recordFrom, List.append_assoc, List.foldl_cons]

/-- A record after one more call. -/
theorem recordFrom_concat (f : Nat → Call → List α) (calls : List Call) (call : Call) :
    recordFrom f 0 (calls ++ [call]) = recordFrom f 0 calls ++ f (cursorAfter calls) call := by
  rw [recordFrom_append, recordFrom, recordFrom, List.append_nil]
  rfl

theorem placeholder_mem_emissionsOf {r : Reference} (h : r ∈ referencesOf calls) :
    (⟨r.position, [0, 0, 0, 0]⟩ : Emission) ∈ emissionsOf calls := by
  unfold referencesOf emissionsOf at *
  generalize 0 = cursor at h ⊢
  induction calls generalizing cursor with
  | nil => cases h
  | cons call calls ih =>
    rw [recordFrom] at h ⊢
    rcases List.mem_append.1 h with hcall | hrest
    · exact List.mem_append_left _ (Call.placeholder_mem_emissions hcall)
    · exact List.mem_append_right _ (ih _ hrest)

/-- A builder is what the records of a sequence of calls say. -/
structure Builder.Records (b : Builder) (calls : List Call) : Prop where
  cursor_eq : b.cursor = cursorAfter calls
  image_eq : b.image = (emissionsOf calls).foldl Emission.write #[]
  references_eq : b.references.toList = referencesOf calls
  addressOf_eq : ∀ name, b.addressOf name = (bindingsOf calls).lookup name
  duplicates_eq : b.duplicates = #[] ↔ ((bindingsOf calls).map Prod.fst).Nodup

theorem lookup_eq_none_iff_not_mem {xs : List (String × Nat)} {name : String} :
    xs.lookup name = none ↔ name ∉ xs.map Prod.fst := by
  rw [List.lookup_eq_none_iff, List.mem_map, not_exists]
  exact forall_congr' fun x => by
    rw [not_and, bne_iff_ne, ne_comm]

/-- One more call. -/
theorem Builder.Records.perform (h : b.Records calls) (call : Call) :
    (call.perform b).Records (calls ++ [call]) where
  cursor_eq := by
    rw [call.cursor_perform, h.cursor_eq, cursorAfter, cursorAfter, List.foldl_append]
    rfl
  image_eq := by
    rw [call.image_perform, h.image_eq, h.cursor_eq, emissionsOf, emissionsOf, recordFrom_concat,
      List.foldl_append]
  references_eq := by
    rw [call.references_perform, h.references_eq, h.cursor_eq, referencesOf, referencesOf,
      recordFrom_concat]
  addressOf_eq name := by
    rw [call.addressOf_perform, h.addressOf_eq, h.cursor_eq, bindingsOf, bindingsOf,
      recordFrom_concat, List.lookup_append]
  duplicates_eq := by
    rw [call.duplicates_perform_eq_empty_iff, h.duplicates_eq, h.cursor_eq, bindingsOf, bindingsOf,
      recordFrom_concat, List.map_append, List.nodup_append]
    simp only [h.addressOf_eq, lookup_eq_none_iff_not_mem]
    constructor
    · rintro ⟨hnames, hnew⟩
      refine ⟨hnames, call.nodup_bindings _, fun name hname other hother heq => ?_⟩
      obtain ⟨x, hx, rfl⟩ := List.mem_map.1 hother
      exact hnew x hx (heq ▸ hname)
    · rintro ⟨hnames, -, hapart⟩
      exact ⟨hnames, fun x hx hmem => hapart _ hmem _ (List.mem_map_of_mem hx) rfl⟩

theorem Builder.Records.foldl_perform {before : List Call} (h : b.Records before)
    (calls : List Call) : (calls.foldl Call.perform b).Records (before ++ calls) := by
  induction calls generalizing b before with
  | nil => rwa [List.append_nil]
  | cons call calls ih =>
    have := ih (h.perform call)
    rwa [List.append_assoc] at this

/-- **A builder keeps to the records of its calls.** -/
theorem Builder.records_ofCalls (calls : List Call) : (ofCalls calls).Records calls := by
  have hempty : Builder.empty.Records [] :=
    ⟨rfl, rfl, rfl, fun _ => rfl, iff_of_true rfl List.nodup_nil⟩
  exact hempty.foldl_perform calls

/-! ### Finished images -/

/-- Byte number `j` of a number, the least significant being number 0. -/
def littleEndian (a j : Nat) : UInt8 := UInt8.ofNat (a >>> (8 * j))

/-- Whether one of the four bytes of a place that waits for an address is at `i`. -/
def Reference.covers (i : Nat) (r : Reference) : Bool := r.position ≤ i && i < r.position + 4

/-- The last place that waits for an address and has one of its bytes at `i`. -/
def lastReference? (rs : List Reference) (i : Nat) : Option Reference :=
  (rs.filter (Reference.covers i)).getLast?

/-- The address of a label, as it is written over its placeholder. -/
def Builder.filling (b : Builder) (r : Reference) : Emission :=
  ⟨r.position, (b.resolved r.label).encode⟩

variable {r : Reference} {rs : List Reference} {a j : Nat}

theorem getElem?_encode_ofNat (ha : a ≤ Word.maxValue) (hj : j < 4) :
    (Word.encode (Int32.ofNat a))[j]? = some (littleEndian a j) := by
  have hn : (Int32.ofNat a).toUInt32.toNat = a := by
    change (BitVec.ofNat 32 a).toNat = a
    rw [BitVec.toNat_ofNat]
    unfold Word.maxValue at ha
    omega
  simp only [Word.encode, hn, littleEndian, Nat.shiftRight_eq_div_pow]
  obtain rfl | rfl | rfl | rfl : j = 0 ∨ j = 1 ∨ j = 2 ∨ j = 3 := by omega
  all_goals simp

theorem covers_of_lastReference? (h : lastReference? rs i = some r) :
    r ∈ rs ∧ r.position ≤ i ∧ i < r.position + 4 := by
  obtain ⟨hmem, hcovers⟩ := List.mem_filter.1 (List.mem_of_getLast? h)
  simp only [Reference.covers, Bool.and_eq_true, decide_eq_true_iff] at hcovers
  exact ⟨hmem, hcovers⟩

/-- The last byte of an address that is written at `i` belongs to the last reference there. -/
theorem lastByte?_filling (b : Builder) (rs : List Reference) (i : Nat) :
    lastByte? (rs.map b.filling) i =
      (lastReference? rs i).map fun r => ((b.filling r).byteAt? i).getD 0 := by
  rw [lastByte?, lastReference?, ← List.getLast?_map, List.filterMap_map, ← List.filterMap_eq_map,
    List.filterMap_filter]
  refine congrArg List.getLast? (List.filterMap_congr fun r _ => ?_)
  simp only [Function.comp_apply, Reference.covers, Bool.and_eq_true, decide_eq_true_iff]
  split
  · rename_i h
    have hlt : i - r.position < (b.resolved r.label).encode.length := by
      rw [Word.length_encode]
      unfold Word.width
      omega
    rw [Emission.byteAt?_of_mem h.1, Builder.filling, List.getElem?_eq_getElem hlt,
      Option.getD_some]
  · refine Emission.byteAt?_eq_none ?_
    simp only [Builder.filling, Emission.stop, Word.length_encode, Word.width]
    omega

theorem mem_of_lookup {xs : List (String × Nat)} {name : String} (h : xs.lookup name = some a) :
    (name, a) ∈ xs := by
  obtain ⟨l₁, l₂, rfl, -⟩ := List.lookup_eq_some_iff.1 h
  exact List.mem_append_right _ List.mem_cons_self

theorem lookup_of_mem {xs : List (String × Nat)} {name : String} (hxs : (xs.map Prod.fst).Nodup)
    (h : (name, a) ∈ xs) : xs.lookup name = some a := by
  obtain ⟨l₁, l₂, rfl⟩ := List.append_of_mem h
  refine List.lookup_eq_some_iff.2 ⟨l₁, l₂, rfl, fun x hx => ?_⟩
  rw [List.map_append, List.nodup_append] at hxs
  rw [bne_iff_ne, ne_comm]
  exact hxs.2.2 _ (List.mem_map_of_mem hx) _ List.mem_cons_self

/-- The address of the label that a reference of a finished image names is a word, and finishing
fills in that address. -/
theorem resolved_of_finish (h : (Builder.ofCalls calls).finish = .ok image)
    (hr : r ∈ referencesOf calls) :
    ∃ a ≤ Word.maxValue, (bindingsOf calls).lookup r.label = some a ∧
      (Builder.ofCalls calls).resolved r.label = Int32.ofNat a := by
  have hrecords := Builder.records_ofCalls calls
  obtain ⟨-, hbound, -⟩ := Builder.finish_eq_ok h
  rw [hrecords.references_eq] at hbound
  obtain ⟨a, ha, hmax⟩ := hbound r hr
  exact ⟨a, hmax, by rw [← hrecords.addressOf_eq, ha], Builder.resolved_of_bound ha hmax⟩

/-- A finished image is the image of the builder with the addresses written over it, which all find
their place there. -/
theorem image_of_finish (h : (Builder.ofCalls calls).finish = .ok image) :
    image = ((referencesOf calls).map (Builder.ofCalls calls).filling).foldl Emission.write
        (Builder.ofCalls calls).image ∧
      image.size = (Builder.ofCalls calls).image.size := by
  have hrecords := Builder.records_ofCalls calls
  obtain ⟨-, -, himage⟩ := Builder.finish_eq_ok h
  have hwrite : image = ((referencesOf calls).map (Builder.ofCalls calls).filling).foldl
      Emission.write (Builder.ofCalls calls).image := by
    rw [himage, hrecords.references_eq, List.foldl_map]
    rfl
  refine ⟨hwrite, ?_⟩
  rw [hwrite, size_foldl_write, Nat.max_eq_left]
  -- a reference reaches no further than the zeros that were emitted for it
  refine extent_le fun e he => ?_
  obtain ⟨r, hr, rfl⟩ := List.mem_map.1 he
  have hplaceholder := stop_le_extent (placeholder_mem_emissionsOf hr)
  rw [hrecords.image_eq, size_foldl_write]
  exact Nat.le_trans hplaceholder (Nat.le_max_right _ _)

/-- **What a finished image consists of.**  Its length is the furthest end of what the calls have
emitted, and finishing does not change it.  The byte at an address below is, if a place that waits
for the address of a label covers it, the matching byte of that address, least significant first,
for the last such reference; otherwise it is the last byte that was emitted there; and zero where
there was none. -/
theorem finished_image_bytes (h : (Builder.ofCalls calls).finish = .ok image) :
    image.size = extent (emissionsOf calls) ∧
    image.size = (Builder.ofCalls calls).image.size ∧
    ∀ i < image.size,
      (∀ r, lastReference? (referencesOf calls) i = some r →
        (∃ a, (r.label, a) ∈ bindingsOf calls) ∧
        ∀ a, (r.label, a) ∈ bindingsOf calls →
          image[i]? = some (littleEndian a (i - r.position))) ∧
      (lastReference? (referencesOf calls) i = none →
        image[i]? = some ((lastByte? (emissionsOf calls) i).getD 0)) := by
  have hrecords := Builder.records_ofCalls calls
  obtain ⟨hwrite, hsize⟩ := image_of_finish h
  have hextent : image.size = extent (emissionsOf calls) := by
    rw [hsize, hrecords.image_eq, size_foldl_write]
    exact Nat.zero_max _
  refine ⟨hextent, hsize, fun i hi => ?_⟩
  -- the addresses are written last, so they win over what was emitted
  have hbyte : image[i]? = some ((lastByte?
      ((referencesOf calls).map (Builder.ofCalls calls).filling) i).getD
        ((lastByte? (emissionsOf calls) i).getD 0)) := by
    have hget : image[i]? = some (image.getD i 0) := by
      rw [Array.getD_eq_getD_getElem?, Array.getElem?_eq_getElem hi, Option.getD_some]
    rw [hget, hwrite, getD_foldl_write, hrecords.image_eq, getD_foldl_write]
    rfl
  rw [lastByte?_filling] at hbyte
  refine ⟨fun r hr => ?_, fun hnone => ?_⟩
  · obtain ⟨hmem, hle, hlt⟩ := covers_of_lastReference? hr
    obtain ⟨a, hmax, hlookup, hresolved⟩ := resolved_of_finish h hmem
    refine ⟨⟨a, mem_of_lookup hlookup⟩, fun a' ha' => ?_⟩
    have hnodup := hrecords.duplicates_eq.1 (Builder.finish_eq_ok h).1
    obtain rfl : a = a' := Option.some.inj (hlookup.symm.trans (lookup_of_mem hnodup ha'))
    have hj : i - r.position < 4 := by omega
    rw [hbyte, hr, Option.map_some, Option.getD_some, Emission.byteAt?_of_mem hle,
      Builder.filling, hresolved, getElem?_encode_ofNat hmax hj, Option.getD_some]
  · rw [hbyte, hnone, Option.map_none, Option.getD_none]

/-- Two references that overlap, a byte over the second of them, a text elsewhere, and nothing at
all far behind. -/
def overlappingCalls : List Call :=
  [.seek 1, .label "low", .seek 300, .label "high", .seek 2, .wordLabel "high", .seek 4,
    .wordLabel "low", .seek 7, .byte 0xff, .placeString 9 "A", .seek 12, .bytes [], .seek 40]

/-- The first reference keeps the two bytes that the second one leaves it, the second one keeps the
byte that was written over it, and the image ends where nothing was emitted. -/
theorem finished_image_bytes_overlapping :
    ∃ image, (Builder.ofCalls overlappingCalls).finish = .ok image ∧ image.size = 12 ∧
      image[3]? = some (littleEndian 300 1) ∧ image[4]? = some (littleEndian 1 0) ∧
      image[7]? = some (littleEndian 1 3) ∧ image[9]? = some 0x41 ∧ image[10]? = some 0 := by
  have h : (Builder.ofCalls overlappingCalls).finish =
      .ok #[0, 0, 44, 1, 1, 0, 0, 0, 0, 65, 0, 0] := by decide +kernel
  obtain ⟨hextent, -, hbytes⟩ := finished_image_bytes h
  have hbinding : ∀ x ∈ [("low", 1), ("high", 300)], x ∈ bindingsOf overlappingCalls := by decide
  refine ⟨_, h, hextent, ?_, ?_, ?_, ?_, ?_⟩
  · exact ((hbytes 3 (by decide)).1 ⟨2, "high"⟩ (by rfl)).2 300 (hbinding _ (by decide))
  · exact ((hbytes 4 (by decide)).1 ⟨4, "low"⟩ (by rfl)).2 1 (hbinding _ (by decide))
  · exact ((hbytes 7 (by decide)).1 ⟨4, "low"⟩ (by rfl)).2 1 (hbinding _ (by decide))
  · exact (hbytes 9 (by decide)).2 (by rfl)
  · exact (hbytes 10 (by decide)).2 (by rfl)

end

end Assembly

end TapeMachine
