import TapeMachine.Assembly.Builder

/-!
# What a builder writes

`Assembly.place` in terms of the bytes before, under and behind what is written: bytes that are
written over others of the same number take their place (`Assembly.place_append`), and bytes that
are written behind the end are appended (`Assembly.place_of_size_le`).  So a builder whose cursor
stands at the end of its image (`Assembly.Builder.AtEnd`) appends what it emits and stays there.

A label is bound to the cursor by the first call for it (`Assembly.Builder.addressOf_label`), and
every further one leaves a duplicate (`Assembly.Builder.duplicates_label_eq_empty_iff`).  Finishing
an image is writing the addresses of labels over their placeholders, one reference after
the other (`Assembly.Builder.finish_eq_ok`, `Assembly.Builder.finish_of_bound`,
`Assembly.Builder.finish_eq_error`).
-/

namespace TapeMachine

theorem overwrite_append (before after : List UInt8) {old data : List UInt8}
    (h : old.length = data.length) :
    overwrite (before ++ old ++ after).toArray before.length data =
      (before ++ data ++ after).toArray := by
  induction data generalizing before old with
  | nil =>
    rw [List.eq_nil_of_length_eq_zero h]
    rfl
  | cons b data ih =>
    cases old with
    | nil => cases h
    | cons o old =>
      have hset : ((before ++ o :: old ++ after).toArray).setIfInBounds before.length b =
          (before ++ [b] ++ old ++ after).toArray := by
        simp
      have hlen : before.length + 1 = (before ++ [b]).length := by simp
      rw [overwrite, hset, hlen, ih _ (Nat.succ.inj h)]
      simp

namespace Assembly

/-- Bytes that are written over others of the same number take their place. -/
theorem place_append (before after : List UInt8) {old data : List UInt8}
    (h : old.length = data.length) :
    place (before ++ old ++ after).toArray before.length data =
      (before ++ data ++ after).toArray := by
  have hfit : before.length + data.length - (before ++ old ++ after).toArray.size = 0 := by
    simp only [List.size_toArray, List.length_append]
    omega
  rw [place, hfit, Array.replicate_zero, Array.append_empty, overwrite_append _ _ h]

/-- Bytes that are written behind the end are appended, with zeros for the gap. -/
theorem place_of_size_le {image : Array UInt8} {start : Nat} (data : List UInt8)
    (h : image.size ≤ start) :
    place image start data =
      (image.toList ++ List.replicate (start - image.size) 0 ++ data).toArray := by
  have hgap : start + data.length - image.size = start - image.size + data.length := by omega
  have hpad : image ++ Array.replicate (start - image.size + data.length) 0 =
      (image.toList ++ List.replicate (start - image.size) 0 ++ List.replicate data.length 0 ++
        []).toArray := by
    simp [← List.replicate_append_replicate]
  have hlen : (image.toList ++ List.replicate (start - image.size) (0 : UInt8)).length = start := by
    simp only [List.length_append, Array.length_toList, List.length_replicate]
    omega
  have hover := overwrite_append (image.toList ++ List.replicate (start - image.size) 0) []
    (List.length_replicate (n := data.length) (a := (0 : UInt8)))
  rw [place, hgap, hpad]
  rwa [hlen, List.append_nil (image.toList ++ _ ++ data)] at hover

/-- Bytes that are written at the end are appended. -/
theorem place_size (image : Array UInt8) (data : List UInt8) :
    place image image.size data = (image.toList ++ data).toArray := by
  rw [place_of_size_le data (Nat.le_refl _), Nat.sub_self, List.replicate_zero, List.append_nil]

namespace Builder

variable {b : Builder} {image image' : Array UInt8}

/-! ### Emitting at the end -/

@[simp] theorem image_bytes (data : List UInt8) :
    (b.bytes data).image = place b.image b.cursor data := rfl

@[simp] theorem labels_bytes (data : List UInt8) : (b.bytes data).labels = b.labels := rfl

@[simp] theorem references_bytes (data : List UInt8) : (b.bytes data).references = b.references :=
  rfl

@[simp] theorem duplicates_bytes (data : List UInt8) : (b.bytes data).duplicates = b.duplicates :=
  rfl

@[simp] theorem cursor_bytes (data : List UInt8) : (b.bytes data).cursor = b.cursor + data.length :=
  rfl

/-- The cursor stands at the end of the image. -/
def AtEnd (b : Builder) : Prop := b.cursor = b.image.size

theorem AtEnd.image_bytes (h : b.AtEnd) (data : List UInt8) :
    (b.bytes data).image.toList = b.image.toList ++ data := by
  change (place b.image b.cursor data).toList = _
  rw [h, place_size]

theorem AtEnd.bytes (h : b.AtEnd) (data : List UInt8) : (b.bytes data).AtEnd := by
  have himage := congrArg List.length (h.image_bytes data)
  simp only [Array.length_toList, List.length_append] at himage
  rw [AtEnd, cursor_bytes, himage, h]

/-! ### Labels -/

theorem label_of_bound {name : String} {a : Nat} (h : b.addressOf name = some a) :
    b.label name = { b with duplicates := b.duplicates.push name } := by
  rw [label, h]
  rfl

theorem label_of_new {name : String} (h : b.addressOf name = none) :
    b.label name = { b with labels := b.labels ++ [(name, b.cursor)] } := by
  rw [label, h]
  rfl

/-- A label is bound to the cursor, unless it is bound already. -/
theorem addressOf_label (b : Builder) (other name : String) :
    (b.label other).addressOf name =
      (b.addressOf name).or (if other = name then some b.cursor else none) := by
  cases ha : b.addressOf other with
  | some a =>
    -- the second binding is noted as a duplicate and changes nothing
    rw [label_of_bound ha]
    change b.addressOf name = _
    by_cases heq : other = name
    · rw [← heq, ha, Option.some_or]
    · rw [if_neg heq, Option.or_none]
  | none =>
    rw [label_of_new ha]
    change (b.labels ++ [(other, b.cursor)]).lookup name = _
    rw [List.lookup_append]
    by_cases heq : other = name
    · simp [addressOf, heq]
    · have hne : (name == other) = false := by simpa using Ne.symm heq
      simp [addressOf, List.lookup_cons, hne, heq]

/-- A label is new if binding it leaves no duplicate. -/
theorem duplicates_label_eq_empty_iff (b : Builder) (name : String) :
    (b.label name).duplicates = #[] ↔ b.duplicates = #[] ∧ b.addressOf name = none := by
  cases ha : b.addressOf name with
  | some a =>
    rw [label_of_bound ha]
    exact ⟨fun h => absurd h Array.push_ne_empty, fun h => by cases h.2⟩
  | none =>
    rw [label_of_new ha]
    exact ⟨fun h => ⟨h, rfl⟩, fun h => h.1⟩

/-! ### Finishing -/

/-- The word that a reference to a label becomes. -/
def resolved (b : Builder) (name : String) : Word := ((b.addressOf name).bind Word.ofNat?).getD 0

theorem resolved_of_bound {name : String} {a : Nat} (h : b.addressOf name = some a)
    (hmax : a ≤ Word.maxValue) : b.resolved name = Int32.ofNat a := by
  have hv : Word.ofNat? a = some (Int32.ofNat a) := if_pos hmax
  rw [resolved, h, Option.bind_some, hv, Option.getD_some]

theorem toInt_resolved {name : String} {a : Nat} (h : b.addressOf name = some a)
    (hmax : a ≤ Word.maxValue) : (b.resolved name).toInt = a := by
  rw [resolved_of_bound h hmax]
  exact Int32.toInt_ofNat_of_lt (Nat.lt_succ_of_le hmax)

/-- Write the address of a label over its placeholder. -/
def patch (b : Builder) (image : Array UInt8) (r : Reference) : Array UInt8 :=
  place image r.position (b.resolved r.label).encode

theorem resolve_of_bound {r : Reference} {a : Nat} (ha : b.addressOf r.label = some a)
    (hmax : a ≤ Word.maxValue) : b.resolve image r = .ok (b.patch image r) := by
  have hv : Word.ofNat? a = some (Int32.ofNat a) := if_pos hmax
  simp only [resolve, patch, resolved_of_bound ha hmax, ha, hv]

theorem resolve_eq_ok {r : Reference} (h : b.resolve image r = .ok image') :
    (∃ a, b.addressOf r.label = some a ∧ a ≤ Word.maxValue) ∧ image' = b.patch image r := by
  cases ha : b.addressOf r.label with
  | none =>
    simp only [resolve, ha] at h
    cases h
  | some a =>
    by_cases hmax : a ≤ Word.maxValue
    · rw [resolve_of_bound ha hmax] at h
      exact ⟨⟨a, rfl, hmax⟩, (Except.ok.inj h).symm⟩
    · have hv : Word.ofNat? a = none := if_neg hmax
      simp only [resolve, ha, hv] at h
      cases h

theorem foldlM_resolve_eq_ok {references : List Reference}
    (h : references.foldlM b.resolve image = .ok image') :
    (∀ r ∈ references, ∃ a, b.addressOf r.label = some a ∧ a ≤ Word.maxValue) ∧
      image' = references.foldl b.patch image := by
  induction references generalizing image with
  | nil =>
    cases h
    exact ⟨fun r hr => absurd hr List.not_mem_nil, rfl⟩
  | cons r references ih =>
    rw [List.foldlM_cons] at h
    cases hr : b.resolve image r with
    | error e =>
      rw [hr] at h
      cases h
    | ok image₁ =>
      rw [hr] at h
      obtain ⟨hbound, himage₁⟩ := resolve_eq_ok hr
      obtain ⟨hrest, himage'⟩ := ih h
      refine ⟨fun r' hr' => ?_, by rw [himage', himage₁, List.foldl_cons]⟩
      rcases List.mem_cons.1 hr' with rfl | hmem
      · exact hbound
      · exact hrest r' hmem

/-- A builder finishes only if no label is bound twice and every reference has a label whose
address is a word, and then the image is the one with these addresses filled in. -/
theorem finish_eq_ok (h : b.finish = .ok image) :
    b.duplicates = #[] ∧
      (∀ r ∈ b.references.toList, ∃ a, b.addressOf r.label = some a ∧ a ≤ Word.maxValue) ∧
      image = b.references.toList.foldl b.patch b.image := by
  cases hd : b.duplicates[0]? with
  | some name =>
    simp only [finish, hd] at h
    cases h
  | none =>
    simp only [finish, hd] at h
    exact ⟨Array.eq_empty_of_size_eq_zero (by simpa using hd), foldlM_resolve_eq_ok h⟩

theorem foldlM_resolve_of_bound {references : List Reference}
    (h : ∀ r ∈ references, ∃ a, b.addressOf r.label = some a ∧ a ≤ Word.maxValue)
    (image : Array UInt8) :
    references.foldlM b.resolve image = .ok (references.foldl b.patch image) := by
  induction references generalizing image with
  | nil => rfl
  | cons r references ih =>
    obtain ⟨a, ha, hmax⟩ := h r List.mem_cons_self
    rw [List.foldlM_cons, resolve_of_bound ha hmax, List.foldl_cons]
    exact ih (fun r' hr' => h r' (List.mem_cons_of_mem r hr')) _

/-- That is all it takes to finish. -/
theorem finish_of_bound (hd : b.duplicates = #[])
    (h : ∀ r ∈ b.references.toList, ∃ a, b.addressOf r.label = some a ∧ a ≤ Word.maxValue) :
    b.finish = .ok (b.references.toList.foldl b.patch b.image) := by
  have hnone : b.duplicates[0]? = none := by rw [hd]; rfl
  simp only [finish, hnone]
  exact foldlM_resolve_of_bound h b.image

theorem resolve_eq_error {r : Reference} {e : Error} (h : b.resolve image r = .error e) :
    b.addressOf r.label = none ∧ e = .undefinedLabel r.label ∨
      ∃ a, b.addressOf r.label = some a ∧ Word.maxValue < a ∧ e = .addressRange a := by
  cases ha : b.addressOf r.label with
  | none =>
    simp only [resolve, ha] at h
    exact .inl ⟨rfl, (Except.error.inj h).symm⟩
  | some a =>
    by_cases hmax : a ≤ Word.maxValue
    · rw [resolve_of_bound ha hmax] at h
      cases h
    · have hv : Word.ofNat? a = none := if_neg hmax
      simp only [resolve, ha, hv] at h
      exact .inr ⟨a, rfl, Nat.lt_of_not_le hmax, (Except.error.inj h).symm⟩

theorem foldlM_resolve_eq_error {references : List Reference} {e : Error}
    (h : references.foldlM b.resolve image = .error e) :
    ∃ r ∈ references, ∃ image', b.resolve image' r = .error e := by
  induction references generalizing image with
  | nil => cases h
  | cons r references ih =>
    rw [List.foldlM_cons] at h
    cases hr : b.resolve image r with
    | error e' =>
      rw [hr] at h
      cases h
      exact ⟨r, List.mem_cons_self, image, hr⟩
    | ok image₁ =>
      rw [hr] at h
      obtain ⟨r', hr', himage'⟩ := ih h
      exact ⟨r', List.mem_cons_of_mem r hr', himage'⟩

/-- If no label is bound twice and every reference has a label, only an address that is no word can
be in the way. -/
theorem finish_eq_error {e : Error} (hd : b.duplicates = #[])
    (hbound : ∀ r ∈ b.references.toList, b.addressOf r.label ≠ none) (h : b.finish = .error e) :
    ∃ a, e = .addressRange a := by
  have hnone : b.duplicates[0]? = none := by rw [hd]; rfl
  simp only [finish, hnone] at h
  obtain ⟨r, hr, image', herror⟩ := foldlM_resolve_eq_error h
  rcases resolve_eq_error herror with ⟨hunbound, -⟩ | ⟨a, -, -, he⟩
  · exact absurd hunbound (hbound r hr)
  · exact ⟨a, he⟩

end Builder

end Assembly

end TapeMachine
