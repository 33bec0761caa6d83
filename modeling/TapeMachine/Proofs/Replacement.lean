import TapeMachine.Proofs.Occurrences

/-!
# Labels as operands and their addresses

A number is written when its line is taken in.  The address of a label is written at the end, over
the zeros that were emitted for it, in the order of the references (`Assembly.getD_of_finish`).  So
a label that is exchanged for its address (`Assembly.Site`) gives the same image but for two things
that the address of the label wins over and the number does not: the addresses that earlier
references leave in its four bytes, and what is emitted there later
(`Assembly.Site.overwriting?`).

Both take an `.org` that goes back.  In a program without one nothing is ever emitted before the
cursor (`Assembly.Advance.bounds`), and the two images are the same
(`Assembly.label_operand_means_address`).
-/

namespace TapeMachine

namespace Assembly

/-! ### The bytes of finished images -/

/-- The byte that the addresses of labels leave at `i`, if a reference covers it. -/
def addressByte? (addresses : List (String × Nat)) (rs : List Reference) (i : Nat) :
    Option UInt8 :=
  (lastReference? rs i).bind fun r =>
    (addresses.lookup r.label).map fun a => littleEndian a (i - r.position)

variable {calls : List Call} {image image' : Array UInt8} {rs : List Reference} {i a : Nat}

theorem byteAt?_address {p : Nat} (hmax : a ≤ Word.maxValue) (hle : p ≤ i) (hlt : i < p + 4) :
    (⟨p, Word.encode (Int32.ofNat a)⟩ : Emission).byteAt? i = some (littleEndian a (i - p)) := by
  have hj : i - p < 4 := by omega
  rw [Emission.byteAt?_of_mem hle]
  exact getElem?_encode_ofNat hmax hj

theorem lastByte?_filling_of_finish (h : (Builder.ofCalls calls).finish = .ok image)
    (hrs : ∀ r ∈ rs, r ∈ referencesOf calls) (i : Nat) :
    lastByte? (rs.map (Builder.ofCalls calls).filling) i =
      addressByte? (bindingsOf calls) rs i := by
  rw [lastByte?_filling, addressByte?]
  cases hr : lastReference? rs i with
  | none => rfl
  | some r =>
    obtain ⟨hmem, hle, hlt⟩ := covers_of_lastReference? hr
    obtain ⟨a, hmax, hlookup, hresolved⟩ := resolved_of_finish h (hrs r hmem)
    rw [Option.map_some, Option.bind_some, hlookup, Option.map_some, Builder.filling, hresolved,
      byteAt?_address hmax hle hlt, Option.getD_some]

theorem size_of_finish_ofCalls (h : (Builder.ofCalls calls).finish = .ok image) :
    image.size = extent (emissionsOf calls) := by
  rw [(image_of_finish h).2, (Builder.records_ofCalls calls).image_eq, size_foldl_write]
  exact Nat.zero_max _

/-- Addresses are written over what was emitted. -/
theorem getD_of_finish (h : (Builder.ofCalls calls).finish = .ok image) (i : Nat) :
    image.getD i 0 =
      (lastByte? ((referencesOf calls).map (Builder.ofCalls calls).filling) i).getD
        ((lastByte? (emissionsOf calls) i).getD 0) := by
  rw [(image_of_finish h).1, getD_foldl_write, (Builder.records_ofCalls calls).image_eq,
    getD_foldl_write]
  rfl

theorem extent_append (es es' : List Emission) :
    extent (es ++ es') = max (extent es) (extent es') := by
  induction es with
  | nil => exact (Nat.zero_max _).symm
  | cons e es ih => rw [List.cons_append, extent, extent, ih, Nat.max_assoc]

theorem getElem?_eq_of_getD_eq (hsize : image'.size = image.size)
    (h : image'.getD i 0 = image.getD i 0) : image'[i]? = image[i]? := by
  by_cases hi : i < image.size
  · have hi' : i < image'.size := by omega
    rw [Array.getD_eq_getD_getElem?, Array.getD_eq_getD_getElem?, Array.getElem?_eq_getElem hi,
      Array.getElem?_eq_getElem hi', Option.getD_some, Option.getD_some] at h
    rw [Array.getElem?_eq_getElem hi, Array.getElem?_eq_getElem hi', h]
  · rw [Array.getElem?_eq_none (by omega), Array.getElem?_eq_none (by omega)]

/-- Images of the same size are the same if their bytes are. -/
theorem eq_iff_getD (hsize : image'.size = image.size) :
    image' = image ↔ ∀ i, image'.getD i 0 = image.getD i 0 := by
  constructor
  · rintro rfl i
    rfl
  · intro h
    exact Array.ext_getElem? fun i => getElem?_eq_of_getD_eq hsize (h i)

/-! ### The calls around an operand -/

/-- The calls of a statement before its operand. -/
def Frame.earlier : Frame → List Call
  | immediate op => [.op op]
  | words before _ => before.map Operand.call

/-- The calls of a statement behind its operand. -/
def Frame.later : Frame → List Call
  | immediate _ => []
  | words _ after => after.map Operand.call

theorem Frame.calls_fill (frame : Frame) (x : Operand) :
    (frame.fill x).calls = frame.earlier ++ x.call :: frame.later := by
  cases frame with
  | immediate op => rfl
  | words before after => exact List.map_append

namespace Site

/-- The calls before the operand. -/
def earlier (site : Site) : List Call :=
  callsOf site.before ++ (site.labels.map .label ++ site.frame.earlier)

/-- The calls behind the operand. -/
def later (site : Site) : List Call := site.frame.later ++ callsOf site.after

/-- The address of the operand. -/
def position (site : Site) : Nat := cursorAfter site.earlier

/-- What is emitted behind the operand. -/
def laterEmissions (site : Site) : List Emission :=
  recordFrom Call.emissions (site.position + 4) site.later

/-- The places that wait for an address and come behind the operand. -/
def laterReferences (site : Site) : List Reference :=
  recordFrom Call.references (site.position + 4) site.later

/-- What ends up in the byte at `i` of a number, and not of a label, by its being written at once:
the byte of an address for an earlier reference, or else the last one that is emitted later. -/
def overwriting? (site : Site) (addresses : List (String × Nat)) (i : Nat) : Option UInt8 :=
  (addressByte? addresses (referencesOf site.earlier) i).or (lastByte? site.laterEmissions i)

variable {site : Site} {name : String}

theorem callsOf_program (site : Site) (x : Operand) :
    callsOf (site.program x) = site.earlier ++ x.call :: site.later := by
  rw [callsOf, program, List.flatMap_append, List.flatMap_cons, SourceLine.calls,
    Option.elim_some, Frame.calls_fill, earlier, later]
  simp [callsOf]

/-- A record of a program is that of the calls before the operand, of the operand, and of the calls
behind it. -/
theorem recordFrom_program {α : Type} (f : Nat → Call → List α) (site : Site) (x : Operand) :
    recordFrom f 0 (callsOf (site.program x)) =
      recordFrom f 0 site.earlier ++
        (f site.position x.call ++ recordFrom f (site.position + 4) site.later) := by
  have hmoves : x.call.moves site.position = site.position + 4 := by cases x <;> rfl
  rw [callsOf_program, recordFrom_append, recordFrom, ← hmoves]
  rfl

/-- The operand does not matter for the addresses of labels. -/
theorem addressesOf_program (site : Site) (x y : Operand) :
    addressesOf (site.program x) = addressesOf (site.program y) := by
  rw [addressesOf, addressesOf, ← recordFrom_bindings_callsOf, ← recordFrom_bindings_callsOf,
    recordFrom_program, recordFrom_program, x.bindings_call, y.bindings_call]

theorem bindingsOf_program (site : Site) (x : Operand) :
    bindingsOf (callsOf (site.program x)) = addressesOf (site.program x) :=
  recordFrom_bindings_callsOf 0 _

theorem referencesOf_label (site : Site) (name : String) :
    referencesOf (callsOf (site.program (.label name))) =
      referencesOf site.earlier ++ ⟨site.position, name⟩ :: site.laterReferences :=
  site.recordFrom_program Call.references (.label name)

theorem referencesOf_value (site : Site) (v : Word) :
    referencesOf (callsOf (site.program (.value v))) =
      referencesOf site.earlier ++ site.laterReferences :=
  site.recordFrom_program Call.references (.value v)

theorem emissionsOf_label (site : Site) (name : String) :
    emissionsOf (callsOf (site.program (.label name))) =
      emissionsOf site.earlier ++ ⟨site.position, [0, 0, 0, 0]⟩ :: site.laterEmissions :=
  site.recordFrom_program Call.emissions (.label name)

theorem emissionsOf_value (site : Site) (v : Word) :
    emissionsOf (callsOf (site.program (.value v))) =
      emissionsOf site.earlier ++ ⟨site.position, v.encode⟩ :: site.laterEmissions :=
  site.recordFrom_program Call.emissions (.value v)

theorem earlier_mem {r : Reference} (site : Site) (x : Operand)
    (hr : r ∈ referencesOf site.earlier) : r ∈ referencesOf (callsOf (site.program x)) := by
  rw [referencesOf, recordFrom_program]
  exact List.mem_append_left _ hr

theorem later_mem {r : Reference} (site : Site) (x : Operand) (hr : r ∈ site.laterReferences) :
    r ∈ referencesOf (callsOf (site.program x)) := by
  rw [referencesOf, recordFrom_program]
  exact List.mem_append_right _ (List.mem_append_right _ hr)

/-! ### The two images -/

/-- The byte of a label: only later references have a say in it. -/
theorem getD_label
    (h : (Builder.ofCalls (callsOf (site.program (.label name)))).finish = .ok image)
    (ha : (addressesOf (site.program (.label name))).lookup name = some a)
    (hle : site.position ≤ i) (hlt : i < site.position + 4) :
    image.getD i 0 =
      (addressByte? (addressesOf (site.program (.label name))) site.laterReferences i).getD
        (littleEndian a (i - site.position)) := by
  have hreferences := site.referencesOf_label name
  have hown : ((Builder.ofCalls (callsOf (site.program (.label name)))).filling
      ⟨site.position, name⟩).byteAt? i = some (littleEndian a (i - site.position)) := by
    have hmem : (⟨site.position, name⟩ : Reference) ∈
        referencesOf (callsOf (site.program (.label name))) := by simp [hreferences]
    obtain ⟨a', hmax, hlookup, hresolved⟩ := resolved_of_finish h hmem
    rw [bindingsOf_program, ha] at hlookup
    cases hlookup
    rw [Builder.filling, hresolved]
    exact byteAt?_address hmax hle hlt
  rw [getD_of_finish h, hreferences, List.map_append, List.map_cons, lastByte?_append,
    lastByte?_cons, lastByte?_filling_of_finish h fun r => site.later_mem (.label name), hown,
    bindingsOf_program]
  -- the label is a reference itself, so what was emitted is gone
  cases addressByte? (addressesOf (site.program (.label name))) site.laterReferences i <;> rfl

/-- The byte of a number: earlier references and later emissions win over it as well. -/
theorem getD_value (hmax : a ≤ Word.maxValue)
    (h : (Builder.ofCalls (callsOf (site.program (.value (Int32.ofNat a))))).finish = .ok image)
    (hle : site.position ≤ i) (hlt : i < site.position + 4) :
    image.getD i 0 =
      ((addressByte? (addressesOf (site.program (.value (Int32.ofNat a))))
        site.laterReferences i).or
          (site.overwriting? (addressesOf (site.program (.value (Int32.ofNat a)))) i)).getD
        (littleEndian a (i - site.position)) := by
  rw [getD_of_finish h, site.referencesOf_value, site.emissionsOf_value, List.map_append,
    lastByte?_append, lastByte?_append, lastByte?_cons,
    lastByte?_filling_of_finish h fun r => site.earlier_mem (.value (Int32.ofNat a)),
    lastByte?_filling_of_finish h fun r => site.later_mem (.value (Int32.ofNat a)),
    byteAt?_address hmax hle hlt, bindingsOf_program, overwriting?]
  -- later references come first, then earlier ones, and then what was emitted
  cases addressByte? (addressesOf (site.program (.value (Int32.ofNat a))))
      site.laterReferences i with
  | some byte => rfl
  | none =>
    cases addressByte? (addressesOf (site.program (.value (Int32.ofNat a))))
        (referencesOf site.earlier) i with
    | some byte => rfl
    | none => cases lastByte? site.laterEmissions i <;> rfl

/-- The two images agree outside the operand. -/
theorem getD_eq_of_outside {v : Word}
    (h : (Builder.ofCalls (callsOf (site.program (.label name)))).finish = .ok image)
    (h' : (Builder.ofCalls (callsOf (site.program (.value v)))).finish = .ok image')
    (hi : i < site.position ∨ site.position + 4 ≤ i) :
    image'.getD i 0 = image.getD i 0 := by
  have hword : ∀ v : Word, (⟨site.position, v.encode⟩ : Emission).byteAt? i = none := by
    intro v
    refine Emission.byteAt?_eq_none ?_
    rw [Emission.stop, Word.length_encode, Word.width]
    exact hi
  have hzeros : (⟨site.position, [0, 0, 0, 0]⟩ : Emission).byteAt? i = none :=
    Emission.byteAt?_eq_none hi
  rw [getD_of_finish h, getD_of_finish h', site.referencesOf_label, site.referencesOf_value,
    site.emissionsOf_label, site.emissionsOf_value, List.map_append, List.map_append, List.map_cons]
  simp only [lastByte?_append, lastByte?_cons]
  rw [lastByte?_filling_of_finish h fun r => site.earlier_mem (.label name),
    lastByte?_filling_of_finish h fun r => site.later_mem (.label name),
    lastByte?_filling_of_finish h' fun r => site.earlier_mem (.value v),
    lastByte?_filling_of_finish h' fun r => site.later_mem (.value v),
    bindingsOf_program, bindingsOf_program, site.addressesOf_program (.value v) (.label name),
    Builder.filling, hword, hword, hzeros, Option.or_none, Option.or_none]

theorem size_eq {v : Word}
    (h : (Builder.ofCalls (callsOf (site.program (.label name)))).finish = .ok image)
    (h' : (Builder.ofCalls (callsOf (site.program (.value v)))).finish = .ok image') :
    image'.size = image.size := by
  have hstop : (⟨site.position, v.encode⟩ : Emission).stop =
      (⟨site.position, [0, 0, 0, 0]⟩ : Emission).stop := by
    rw [Emission.stop, Word.length_encode]
    rfl
  rw [size_of_finish_ofCalls h, size_of_finish_ofCalls h', site.emissionsOf_label,
    site.emissionsOf_value, extent_append, extent_append, extent, extent, hstop]

/-- The two images are the same if nothing else is written over the number. -/
theorem image_eq_iff
    (h : (Builder.ofCalls (callsOf (site.program (.label name)))).finish = .ok image)
    (ha : (addressesOf (site.program (.label name))).lookup name = some a)
    (hmax : a ≤ Word.maxValue)
    (h' : (Builder.ofCalls (callsOf (site.program (.value (Int32.ofNat a))))).finish =
      .ok image') :
    image' = image ↔
      ∀ i byte, site.position ≤ i → i < site.position + 4 →
        addressByte? (addressesOf (site.program (.label name))) site.laterReferences i = none →
        site.overwriting? (addressesOf (site.program (.label name))) i = some byte →
        byte = littleEndian a (i - site.position) := by
  have hlabel := fun i => getD_label (i := i) h ha
  have hvalue := fun i => getD_value (i := i) hmax h'
  simp only [site.addressesOf_program (.value (Int32.ofNat a)) (.label name)] at hvalue
  constructor
  · rintro rfl i byte hle hlt hnone hsome
    have heq := (hvalue i hle hlt).symm.trans (hlabel i hle hlt)
    rwa [hnone, hsome] at heq
  · intro hbytes
    refine (eq_iff_getD (size_eq h h')).2 fun i => ?_
    by_cases hi : i < site.position ∨ site.position + 4 ≤ i
    · exact getD_eq_of_outside h h' hi
    · obtain ⟨hle, hlt⟩ : site.position ≤ i ∧ i < site.position + 4 := by omega
      rw [hvalue i hle hlt, hlabel i hle hlt]
      cases hlater : addressByte? (addressesOf (site.program (.label name)))
          site.laterReferences i with
      | some byte => rfl
      | none =>
        cases hover : site.overwriting? (addressesOf (site.program (.label name))) i with
        | none => rfl
        | some byte => exact hbytes i byte hle hlt hlater hover

end Site

/-! ### Programs that never go back -/

/-- The addresses of a program that starts at `address` never go back. -/
def AscendsFrom (address : Nat) : List SourceLine → Prop
  | [] => True
  | l :: program =>
    address ≤ l.statement.elim address (Statement.next address) ∧
      AscendsFrom (l.statement.elim address (Statement.next address)) program

/-- No `.org` of a program goes back. -/
def Ascends (program : List SourceLine) : Prop := AscendsFrom 0 program

/-- A call that emits only between the cursor it meets and the one it leaves. -/
structure Call.Advances (cursor : Nat) (call : Call) : Prop where
  le_moves : cursor ≤ call.moves cursor
  bounds : ∀ e ∈ call.emissions cursor, cursor ≤ e.address ∧ e.stop ≤ call.moves cursor

/-- Calls that do so one after the other. -/
def Advance : Nat → List Call → Prop
  | _, [] => True
  | cursor, call :: calls => call.Advances cursor ∧ Advance (call.moves cursor) calls

theorem Call.advances (cursor : Nat) {call : Call} (hseek : ∀ address, call ≠ .seek address)
    (hplace : ∀ address text, call ≠ .placeString address text) : call.Advances cursor := by
  cases call with
  | seek address => exact absurd rfl (hseek address)
  | placeString address text => exact absurd rfl (hplace address text)
  | _ =>
    refine ⟨by simp [moves], ?_⟩
    simp [emissions, moves, Emission.stop, Word.length_encode, Word.width]

namespace Advance

variable {cursor : Nat} {calls calls' : List Call}

theorem append_iff :
    Advance cursor (calls ++ calls') ↔
      Advance cursor calls ∧ Advance (calls.foldl Call.moves cursor) calls' := by
  induction calls generalizing cursor with
  | nil => simp [Advance]
  | cons call calls ih => rw [List.cons_append, Advance, ih, Advance, and_assoc, List.foldl_cons]

theorem of_forall (h : ∀ call ∈ calls, ∀ cursor, call.Advances cursor) (cursor : Nat) :
    Advance cursor calls := by
  induction calls generalizing cursor with
  | nil => trivial
  | cons call calls ih =>
    obtain ⟨hcall, hcalls⟩ := List.forall_mem_cons.1 h
    exact ⟨hcall cursor, ih hcalls _⟩

theorem le (h : Advance cursor calls) : cursor ≤ calls.foldl Call.moves cursor := by
  induction calls generalizing cursor with
  | nil => exact Nat.le_refl cursor
  | cons call calls ih => exact Nat.le_trans h.1.le_moves (ih h.2)

/-- What such calls emit lies between the first cursor and the last. -/
theorem bounds (h : Advance cursor calls) {e : Emission}
    (he : e ∈ recordFrom Call.emissions cursor calls) :
    cursor ≤ e.address ∧ e.stop ≤ calls.foldl Call.moves cursor := by
  induction calls generalizing cursor with
  | nil => cases he
  | cons call calls ih =>
    obtain ⟨hcall, hcalls⟩ := h
    rcases List.mem_append.1 he with hmem | hmem
    · obtain ⟨hle, hstop⟩ := hcall.bounds e hmem
      exact ⟨hle, Nat.le_trans hstop hcalls.le⟩
    · obtain ⟨hle, hstop⟩ := ih hcalls hmem
      exact ⟨Nat.le_trans hcall.le_moves hle, hstop⟩

end Advance

theorem Operand.advances_call (x : Operand) (cursor : Nat) : x.call.Advances cursor := by
  cases x with
  | label name => exact Call.advances cursor (by simp [call]) (by simp [call])
  | value v => exact Call.advances cursor (by simp [call]) (by simp [call])

/-- Only an `.org` can go back. -/
theorem Statement.advance_calls {cursor : Nat} (s : Statement) (h : cursor ≤ s.next cursor) :
    Advance cursor s.calls := by
  cases s with
  | origin address => exact ⟨⟨h, by simp [Call.emissions]⟩, trivial⟩
  | plain op => exact ⟨Call.advances cursor (by simp) (by simp), trivial⟩
  | string text => exact ⟨Call.advances cursor (by simp) (by simp), trivial⟩
  | immediate op x =>
    exact ⟨Call.advances cursor (by simp) (by simp), x.advances_call _, trivial⟩
  | words xs =>
    refine Advance.of_forall (fun call hcall cursor => ?_) cursor
    obtain ⟨x, -, rfl⟩ := List.mem_map.1 hcall
    exact x.advances_call cursor
  | bytes data =>
    refine Advance.of_forall (fun call hcall cursor => ?_) cursor
    obtain ⟨b, -, rfl⟩ := List.mem_map.1 hcall
    exact Call.advances cursor (by simp) (by simp)

theorem SourceLine.advance_calls {cursor : Nat} (l : SourceLine)
    (h : cursor ≤ l.statement.elim cursor (Statement.next cursor)) : Advance cursor l.calls := by
  obtain ⟨labels, statement⟩ := l
  have hlabels : ∀ call ∈ labels.map Call.label, ∀ cursor, call.Advances cursor := by
    intro call hcall cursor
    obtain ⟨name, -, rfl⟩ := List.mem_map.1 hcall
    exact Call.advances cursor (by simp) (by simp)
  have hcursor := SourceLine.foldl_moves_calls cursor ⟨labels, none⟩
  rw [SourceLine.calls, Option.elim_none, List.append_nil, Option.elim_none] at hcursor
  rw [SourceLine.calls, Advance.append_iff, hcursor]
  refine ⟨Advance.of_forall hlabels cursor, ?_⟩
  cases statement with
  | none => trivial
  | some s => exact s.advance_calls h

theorem advance_callsOf {address : Nat} {program : List SourceLine}
    (h : AscendsFrom address program) : Advance address (callsOf program) := by
  induction program generalizing address with
  | nil => trivial
  | cons l program ih =>
    obtain ⟨hl, hprogram⟩ := h
    rw [callsOf, List.flatMap_cons, Advance.append_iff, l.foldl_moves_calls]
    exact ⟨l.advance_calls hl, ih hprogram⟩

/-- Nothing is written over an operand in a program that never goes back. -/
theorem Site.overwriting?_eq_none {site : Site} {x : Operand} (h : Ascends (site.program x))
    (hle : site.position ≤ i) (hlt : i < site.position + 4) (addresses : List (String × Nat)) :
    site.overwriting? addresses i = none := by
  have hadvance := advance_callsOf h
  rw [site.callsOf_program, Advance.append_iff] at hadvance
  obtain ⟨hearlier, -, hlater⟩ := hadvance
  have hmoves : x.call.moves site.position = site.position + 4 := by cases x <;> rfl
  have hreference : lastReference? (referencesOf site.earlier) i = none := by
    cases hr : lastReference? (referencesOf site.earlier) i with
    | none => rfl
    | some r =>
      obtain ⟨hmem, -, hcovers⟩ := covers_of_lastReference? hr
      obtain ⟨-, hstop⟩ := hearlier.bounds (placeholder_mem_emissionsOf hmem)
      change r.position + 4 ≤ site.position at hstop
      omega
  have hemission : lastByte? site.laterEmissions i = none := by
    rw [lastByte?, List.getLast?_eq_none_iff, List.filterMap_eq_nil_iff]
    intro e he
    change Advance (x.call.moves site.position) site.later at hlater
    rw [hmoves] at hlater
    have hstart := (hlater.bounds he).1
    exact Emission.byteAt?_eq_none (.inl (by omega))
  rw [overwriting?, addressByte?, hreference, hemission]
  rfl

/-! ### Sources -/

/-- Fewer labels are used if there is a number for one of them. -/
theorem Frame.mem_labels_fill {frame : Frame} {v : Word} {name use : String}
    (h : use ∈ (frame.fill (.value v)).labels) : use ∈ (frame.fill (.label name)).labels := by
  cases frame with
  | immediate op => cases h
  | words before after =>
    rw [fill, Statement.labels, List.flatMap_append, List.flatMap_cons, List.mem_append,
      List.mem_append] at h ⊢
    rcases h with hmem | hmem | hmem
    · exact .inl hmem
    · cases hmem
    · exact .inr (.inr hmem)

theorem Site.mem_usesOf {site : Site} {v : Word} {name : String} {use : String × Nat}
    (h : use ∈ usesOf (site.program (.value v))) : use ∈ usesOf (site.program (.label name)) := by
  rw [usesOf, program, usesFrom_append, usesFrom, List.mem_append, List.mem_append] at h ⊢
  rcases h with hmem | hmem | hmem
  · exact .inl hmem
  · obtain ⟨label, hlabel, rfl⟩ := List.mem_map.1 hmem
    exact .inr (.inl (List.mem_map_of_mem (Frame.mem_labels_fill hlabel)))
  · exact .inr (.inr hmem)

theorem Site.labelsOf_program (site : Site) (x y : Operand) :
    labelsOf (site.program x) = labelsOf (site.program y) := by
  rw [labelsOf, program, labelsOf, program, List.flatMap_append, List.flatMap_append,
    List.flatMap_cons, List.flatMap_cons]

/-- A program can be finished with a number in the place of a label. -/
theorem Site.exists_finish_value {site : Site} {name : String}
    (hnodup : (labelsOf (site.program (.label name))).Nodup)
    (h : (Draft.ofProgram (site.program (.label name))).finish = .ok image) (v : Word) :
    ∃ image', (Draft.ofProgram (site.program (.value v))).finish = .ok image' := by
  obtain ⟨hdefined, hmax⟩ := (Draft.exists_finish_eq_ok_iff hnodup).1 ⟨image, h⟩
  rw [site.labelsOf_program (.label name) (.value v)] at hnodup hdefined
  rw [site.addressesOf_program (.label name) (.value v)] at hmax
  exact (Draft.exists_finish_eq_ok_iff hnodup).2
    ⟨fun use huse => hdefined use (mem_usesOf huse), fun use huse => hmax use (mem_usesOf huse)⟩

theorem Draft.builder_finish {d : Draft} (h : d.finish = .ok image) :
    d.builder.finish = .ok image := by
  cases hundefined : d.undefined? with
  | none => rwa [finish_of_defined hundefined] at h
  | some use =>
    rw [finish_of_undefined hundefined] at h
    cases h

/-- An address that is a word is read back from its decimal digits. -/
theorem spelled_toString (hmax : a ≤ Word.maxValue) :
    (Operand.value (Int32.ofNat a)).Spelled (toString a).toList := by
  have hint : (Int32.ofNat a).toInt = a := by
    unfold Word.maxValue at hmax
    exact Int32.toInt_ofNat_of_lt (by omega)
  have hparse := Operand.parse_toString (Int32.ofNat a)
  rw [hint] at hparse
  exact Operand.parse_eq_ok_iff.1 hparse

/-- **A label as an operand means its address.**  Every operand of a program that is a label stands
in the source, and the source with the decimal address in its place assembles too: it spells the
program with the number there, and its image is as long and has the same bytes outside the operand.
The images are the same exactly if, in the bytes of the operand that no later label has a part in,
neither the address of an earlier label nor a later emission leaves anything but the bytes of the
address, and always if no `.org` goes back. -/
theorem label_operand_means_address {source : String} {image : Array UInt8}
    (h : assemble source = .ok image) :
    ∃ program, List.Forall₂ SourceLine.Spelled program (Text.lines source.toList) ∧
      ∀ (site : Site) (name : String), program = site.program (.label name) →
        ∃ (a : Nat) (front back : String) (image' : Array UInt8),
          (name, a) ∈ addressesOf program ∧
          source = front ++ name ++ back ∧
          List.Forall₂ SourceLine.Spelled (site.program (.value (Int32.ofNat a)))
            (Text.lines (front ++ toString a ++ back).toList) ∧
          assemble (front ++ toString a ++ back) = .ok image' ∧
          image'.size = image.size ∧
          (∀ i, i < site.position ∨ site.position + 4 ≤ i → image'[i]? = image[i]?) ∧
          (image' = image ↔
            ∀ i byte, site.position ≤ i → i < site.position + 4 →
              addressByte? (addressesOf program) site.laterReferences i = none →
              site.overwriting? (addressesOf program) i = some byte →
              byte = littleEndian a (i - site.position)) ∧
          (Ascends program → image' = image) := by
  obtain ⟨program, hspelled, hnodup, hfinish⟩ := assemble_eq_ok_iff.1 h
  refine ⟨program, hspelled, fun site name hprogram => ?_⟩
  subst hprogram
  have hlabel := Draft.builder_finish hfinish
  -- the label has an address, and it is a word
  have hmem : (⟨site.position, name⟩ : Reference) ∈
      referencesOf (callsOf (site.program (.label name))) := by simp [site.referencesOf_label]
  obtain ⟨a, hmax, ha, -⟩ := resolved_of_finish hlabel hmem
  rw [Site.bindingsOf_program] at ha
  -- its digits can be written where the name stands
  obtain ⟨front, back, hsource, hnew⟩ := exists_occurrence hspelled
  have hspelled' := hnew (toString a).toList _ (isToken_toString a) (spelled_toString hmax)
  obtain ⟨image', hfinish'⟩ := site.exists_finish_value hnodup hfinish (Int32.ofNat a)
  have hvalue := Draft.builder_finish hfinish'
  have hiff := Site.image_eq_iff hlabel ha hmax hvalue
  have htext : (String.ofList front ++ toString a ++ String.ofList back).toList =
      front ++ ((toString a).toList ++ back) := by simp
  rw [← htext] at hspelled'
  refine ⟨a, String.ofList front, String.ofList back, image', mem_of_lookup ha, ?_, hspelled', ?_,
    Site.size_eq hlabel hvalue, fun i hi => ?_, hiff, fun hascends => hiff.2 ?_⟩
  · rw [← String.toList_inj, hsource]
    simp
  · rw [site.labelsOf_program (.label name) (.value (Int32.ofNat a))] at hnodup
    exact assemble_eq_ok_iff.2 ⟨_, hspelled', hnodup, hfinish'⟩
  · exact getElem?_eq_of_getD_eq (Site.size_eq hlabel hvalue)
      (Site.getD_eq_of_outside hlabel hvalue hi)
  · intro i byte hle hlt _ hsome
    rw [Site.overwriting?_eq_none hascends hle hlt] at hsome
    cases hsome

/-- A text spells one program only, the one that its lines are read as. -/
theorem eq_of_spelled {program program' : List SourceLine} {ls : List (List Char)}
    (h : List.Forall₂ SourceLine.Spelled program ls)
    (hread : (ls.map fun cs => ((Line.parse cs).labels, (Line.parse cs).body)) =
      program'.map fun l => (l.labels, .ok l.statement)) : program = program' := by
  have hprogram : (ls.map fun cs => ((Line.parse cs).labels, (Line.parse cs).body)) =
      program.map fun l => (l.labels, .ok l.statement) := by
    clear hread
    induction h with
    | nil => rfl
    | cons hl _ ih => rw [List.map_cons, List.map_cons, ih, Line.parse_eq_iff.2 hl]
  refine List.map_injective_iff.2 (fun l l' heq => ?_) (hprogram.symm.trans hread)
  obtain ⟨labels, statement⟩ := l
  cases heq
  rfl

/-- A label between two literals of a quote, where the scan for comments takes it to be inside of
one, and a comment that has the same name in it. -/
theorem label_operand_means_address_between_quotes :
    assemble "JMP end\n.word ''', end, ''' ; end\nend: HALT" =
        .ok #[16, 17, 0, 0, 0, 39, 0, 0, 0, 17, 0, 0, 0, 39, 0, 0, 0, 255] ∧
      ∃ front back : String,
        "JMP end\n.word ''', end, ''' ; end\nend: HALT" = front ++ "end" ++ back ∧
        List.Forall₂ SourceLine.Spelled
          [⟨[], some (.immediate .jump (.label "end"))⟩,
            ⟨[], some (.words [.value 39, .value 17, .value 39])⟩, ⟨["end"], some (.plain .halt)⟩]
          (Text.lines (front ++ "17" ++ back).toList) ∧
        assemble (front ++ "17" ++ back) =
          .ok #[16, 17, 0, 0, 0, 39, 0, 0, 0, 17, 0, 0, 0, 39, 0, 0, 0, 255] := by
  have h : assemble "JMP end\n.word ''', end, ''' ; end\nend: HALT" =
      .ok #[16, 17, 0, 0, 0, 39, 0, 0, 0, 17, 0, 0, 0, 39, 0, 0, 0, 255] := by decide +kernel
  refine ⟨h, ?_⟩
  obtain ⟨program, hspelled, hsites⟩ := label_operand_means_address h
  let site : Site := ⟨[⟨[], some (.immediate .jump (.label "end"))⟩], [],
    .words [.value 39] [.value 39], [⟨["end"], some (.plain .halt)⟩]⟩
  have hprogram : program = site.program (.label "end") :=
    eq_of_spelled hspelled (by decide +kernel)
  obtain ⟨a, front, back, image', ha, hsource, hspelled', hassemble, -, -, -, hsame⟩ :=
    hsites site "end" hprogram
  rw [hprogram] at ha hsame
  have haddress : a = 17 := by
    have hlist : addressesOf (site.program (.label "end")) = [("end", 17)] := rfl
    rw [hlist, List.mem_singleton] at ha
    exact (Prod.mk.inj ha).2
  subst haddress
  have himage := hsame ⟨by decide, by decide, by decide, trivial⟩
  rw [himage] at hassemble
  exact ⟨front, back, hsource, hspelled', hassemble⟩

/-- Labels that win where their addresses do not: over a word that is emitted later, and over the
address of an earlier label. -/
theorem label_operand_wins_over_address :
    assemble "JMP a\n.org 1\n.word 9\na:" = .ok #[16, 5, 0, 0, 0] ∧
      assemble "JMP 5\n.org 1\n.word 9\na:" = .ok #[16, 9, 0, 0, 0] ∧
      assemble ".word b\n.org 2\n.word a\n.org 65535\na: .org 4660\nb:" =
        .ok #[52, 18, 255, 255, 0, 0] ∧
      assemble ".word b\n.org 2\n.word 65535\n.org 65535\na: .org 4660\nb:" =
        .ok #[52, 18, 0, 0, 0, 0] := by
  decide +kernel

end Assembly

end TapeMachine
