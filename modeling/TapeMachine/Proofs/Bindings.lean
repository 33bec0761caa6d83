import Mathlib.Data.List.Induction
import Mathlib.Data.List.Nodup
import TapeMachine.Proofs.Calls

/-!
# Labels that calls bind and refer to

Whether a builder can finish depends on the labels that its calls bind (`Assembly.bound`) and refer
to (`Assembly.targets`), in whatever order the two kinds of calls come.

* A label has the address at which the cursor was when it was first bound, from that call on
  (`Assembly.addressOf_ofCalls_iff`);
* the first label that is bound again is the first duplicate, and stays it
  (`Assembly.duplicates_ofCalls_of_rebound`);
* references are filled in one after the other, up to the first that meets an obstacle
  (`Assembly.finish_ofCalls_eq_error_iff`).

So a label that is bound again comes before all other errors, and these come in the order of the
references (`Assembly.builder_label_errors`).
-/

namespace TapeMachine

namespace Assembly

/-- The label that a call binds. -/
def Call.bound? : Call → Option String
  | label name => some name
  | _ => none

/-- The label that a call refers to. -/
def Call.target? : Call → Option String
  | wordLabel name | opLabel _ name => some name
  | _ => none

/-- The labels that the calls bind, as often as they do. -/
def bound (calls : List Call) : List String := calls.filterMap Call.bound?

/-- The labels that the calls refer to, as often as they do. -/
def targets (calls : List Call) : List String := calls.filterMap Call.target?

/-- The first call that binds `name` finds the cursor at `a`. -/
def BoundAt (calls : List Call) (name : String) (a : Nat) : Prop :=
  ∃ before after, calls = before ++ .label name :: after ∧ name ∉ bound before ∧
    (Builder.ofCalls before).cursor = a

/-- What keeps a reference to `name` from being filled in, and the error it makes. -/
inductive Obstacle (calls : List Call) (name : String) : Error → Prop
  /-- The label is never bound. -/
  | unbound (h : name ∉ bound calls) : Obstacle calls name (.undefinedLabel name)
  /-- The address of the label is no word. -/
  | outOfReach {a : Nat} (h : BoundAt calls name a) (hmax : Word.maxValue < a) :
      Obstacle calls name (.addressRange a)

variable {calls before after : List Call} {call : Call} {b : Builder} {name : String} {a : Nat}
  {e : Error}

/-! ### What the records say about names -/

theorem mem_bound_iff : name ∈ bound calls ↔ .label name ∈ calls := by
  rw [bound, List.mem_filterMap]
  constructor
  · rintro ⟨call, hmem, hname⟩
    cases call with
    | label other =>
      cases hname
      exact hmem
    | _ => cases hname
  · intro hmem
    exact ⟨_, hmem, rfl⟩

theorem bound_append (calls more : List Call) : bound (calls ++ more) = bound calls ++ bound more :=
  List.filterMap_append

theorem Builder.ofCalls_append (calls more : List Call) :
    Builder.ofCalls (calls ++ more) = more.foldl Call.perform (Builder.ofCalls calls) :=
  List.foldl_append

theorem map_recordFrom {α : Type} {f : Nat → Call → List α} {g : α → String}
    {h : Call → Option String} (hf : ∀ cursor call, (f cursor call).map g = (h call).toList)
    (cursor : Nat) (calls : List Call) :
    (recordFrom f cursor calls).map g = calls.filterMap h := by
  induction calls generalizing cursor with
  | nil => rfl
  | cons call calls ih =>
    rw [recordFrom, List.map_append, hf, ih, List.filterMap_cons]
    cases h call <;> rfl

theorem map_fst_bindingsOf (calls : List Call) : (bindingsOf calls).map Prod.fst = bound calls := by
  refine map_recordFrom (fun cursor call => ?_) 0 calls
  cases call <;> rfl

theorem map_label_referencesOf (calls : List Call) :
    (referencesOf calls).map Reference.label = targets calls := by
  refine map_recordFrom (fun cursor call => ?_) 0 calls
  cases call <;> rfl

/-! ### Addresses -/

theorem addressOf_ofCalls_eq_none_iff :
    (Builder.ofCalls calls).addressOf name = none ↔ name ∉ bound calls := by
  rw [(Builder.records_ofCalls calls).addressOf_eq, lookup_eq_none_iff_not_mem, map_fst_bindingsOf]

/-- An address does not change any more. -/
theorem addressOf_foldl_perform (h : b.addressOf name = some a) (calls : List Call) :
    (calls.foldl Call.perform b).addressOf name = some a := by
  induction calls generalizing b with
  | nil => exact h
  | cons call calls ih =>
    refine ih ?_
    rw [call.addressOf_perform, h, Option.some_or]

theorem addressOf_ofCalls_of_boundAt (h : BoundAt calls name a) :
    (Builder.ofCalls calls).addressOf name = some a := by
  obtain ⟨before, after, rfl, hnew, rfl⟩ := h
  rw [Builder.ofCalls_append, List.foldl_cons]
  refine addressOf_foldl_perform ?_ after
  rw [Call.addressOf_perform, addressOf_ofCalls_eq_none_iff.2 hnew, Option.none_or]
  exact List.lookup_cons_self

theorem exists_boundAt (h : name ∈ bound calls) : ∃ a, BoundAt calls name a := by
  obtain ⟨before, after, hcalls, hbefore⟩ := List.eq_append_cons_of_mem (mem_bound_iff.1 h)
  exact ⟨_, before, after, hcalls, fun hmem => hbefore (mem_bound_iff.1 hmem), rfl⟩

/-- A label has the address at which it was first bound. -/
theorem addressOf_ofCalls_iff :
    (Builder.ofCalls calls).addressOf name = some a ↔ BoundAt calls name a := by
  constructor
  · intro h
    have hmem : name ∈ bound calls := by
      by_contra hnew
      cases (addressOf_ofCalls_eq_none_iff.2 hnew).symm.trans h
    obtain ⟨a', ha'⟩ := exists_boundAt hmem
    cases (addressOf_ofCalls_of_boundAt ha').symm.trans h
    exact ha'
  · exact addressOf_ofCalls_of_boundAt

/-! ### Duplicates -/

theorem duplicates_ofCalls_eq_empty_iff :
    (Builder.ofCalls calls).duplicates = #[] ↔ (bound calls).Nodup := by
  rw [(Builder.records_ofCalls calls).duplicates_eq, map_fst_bindingsOf]

/-- Which duplicate is the first does not change any more. -/
theorem duplicates_foldl_perform (h : b.duplicates[0]? = some name) (calls : List Call) :
    (calls.foldl Call.perform b).duplicates[0]? = some name := by
  induction calls generalizing b with
  | nil => exact h
  | cons call calls ih =>
    refine ih ?_
    cases call with
    | label other =>
      rw [Call.perform, Builder.label]
      split
      · have hpos : 0 < b.duplicates.size := (Array.getElem?_eq_some_iff.1 h).1
        rw [Array.getElem?_push_lt hpos, ← h, Array.getElem?_eq_getElem hpos]
      · exact h
    | _ => rwa [(Call.labels_perform rfl).2]

/-- The first label that is bound again is the first duplicate. -/
theorem duplicates_ofCalls_of_rebound (hnodup : (bound before).Nodup) (hname : name ∈ bound before)
    (after : List Call) :
    (Builder.ofCalls (before ++ .label name :: after)).duplicates[0]? = some name := by
  rw [Builder.ofCalls_append, List.foldl_cons]
  refine duplicates_foldl_perform ?_ after
  obtain ⟨a, ha⟩ := exists_boundAt hname
  rw [Call.perform, Builder.label_of_bound (addressOf_ofCalls_iff.2 ha),
    duplicates_ofCalls_eq_empty_iff.2 hnodup]
  rfl

/-- If labels are bound again, one of them is the first. -/
theorem exists_first_rebound (h : ¬ (bound calls).Nodup) :
    ∃ before name after, calls = before ++ .label name :: after ∧ name ∈ bound before ∧
      (bound before).Nodup := by
  induction calls using List.reverseRecOn with
  | nil => exact absurd List.nodup_nil h
  | append_singleton calls call ih =>
    by_cases hnodup : (bound calls).Nodup
    · rw [bound_append, List.nodup_append] at h
      cases call with
      | label name =>
        refine ⟨calls, name, [], rfl, ?_, hnodup⟩
        by_contra hnew
        refine h ⟨hnodup, List.nodup_singleton name, ?_⟩
        rintro other hother _ hmem rfl
        rw [List.mem_singleton.1 hmem] at hother
        exact hnew hother
      | _ => exact absurd ⟨hnodup, List.nodup_nil, by simp [bound, Call.bound?]⟩ h
    · obtain ⟨before, name, after, rfl, hname, hbefore⟩ := ih hnodup
      exact ⟨before, name, after ++ [call], by simp, hname, hbefore⟩

theorem finish_of_duplicate (h : b.duplicates[0]? = some name) :
    b.finish = .error (.duplicateLabel name) := by
  simp only [Builder.finish, h]

/-! ### References -/

/-- A reference is filled in unless it meets an obstacle. -/
theorem resolve_ofCalls_eq_error_iff {image : Array UInt8} {r : Reference} :
    (Builder.ofCalls calls).resolve image r = .error e ↔ Obstacle calls r.label e := by
  constructor
  · intro h
    rcases Builder.resolve_eq_error h with ⟨hunbound, rfl⟩ | ⟨a, ha, hmax, rfl⟩
    · exact .unbound (addressOf_ofCalls_eq_none_iff.1 hunbound)
    · exact .outOfReach (addressOf_ofCalls_iff.1 ha) hmax
  · intro h
    cases h with
    | unbound hunbound => simp only [Builder.resolve, addressOf_ofCalls_eq_none_iff.2 hunbound]
    | outOfReach ha hmax =>
      have hv : Word.ofNat? _ = none := if_neg (Nat.not_le.2 hmax)
      simp only [Builder.resolve, addressOf_ofCalls_iff.2 ha, hv]

/-- References are filled in up to the first that meets an obstacle. -/
theorem foldlM_resolve_eq_error_iff {references : List Reference} {image : Array UInt8} :
    references.foldlM (Builder.ofCalls calls).resolve image = .error e ↔
      ∃ rs r rs', references = rs ++ r :: rs' ∧
        (∀ r' ∈ rs, ∀ e', ¬ Obstacle calls r'.label e') ∧ Obstacle calls r.label e := by
  induction references generalizing image with
  | nil =>
    refine iff_of_false (fun h => by cases h) ?_
    rintro ⟨rs, r, rs', h, -⟩
    exact List.append_ne_nil_of_right_ne_nil rs (List.cons_ne_nil r rs') h.symm
  | cons r references ih =>
    rw [List.foldlM_cons]
    cases hr : (Builder.ofCalls calls).resolve image r with
    | error e' =>
      have hobstacle := resolve_ofCalls_eq_error_iff.1 hr
      constructor
      · intro h
        cases h
        exact ⟨[], r, references, rfl, by simp, hobstacle⟩
      · rintro ⟨rs, r', rs', heq, hbefore, he⟩
        cases rs with
        | nil =>
          cases heq
          rw [resolve_ofCalls_eq_error_iff.2 he] at hr
          cases hr
          rfl
        | cons r'' rs =>
          cases heq
          exact absurd hobstacle (hbefore r List.mem_cons_self e')
    | ok image' =>
      have hfree : ∀ e', ¬ Obstacle calls r.label e' := by
        intro e' hobstacle
        rw [resolve_ofCalls_eq_error_iff.2 hobstacle] at hr
        cases hr
      refine ih.trans ?_
      constructor
      · rintro ⟨rs, r', rs', rfl, hbefore, he⟩
        exact ⟨r :: rs, r', rs', rfl, List.forall_mem_cons.2 ⟨hfree, hbefore⟩, he⟩
      · rintro ⟨rs, r', rs', heq, hbefore, he⟩
        cases rs with
        | nil =>
          cases heq
          exact absurd he (hfree e)
        | cons r'' rs =>
          cases heq
          exact ⟨rs, r', rs', rfl, (List.forall_mem_cons.1 hbefore).2, he⟩

/-- If no label is bound again, the first reference that meets an obstacle makes the error. -/
theorem finish_ofCalls_eq_error_iff (hnodup : (bound calls).Nodup) :
    (Builder.ofCalls calls).finish = .error e ↔
      ∃ before call after name, calls = before ++ call :: after ∧ call.target? = some name ∧
        (∀ other ∈ targets before, ∀ e', ¬ Obstacle calls other e') ∧ Obstacle calls name e := by
  have hnone : (Builder.ofCalls calls).duplicates[0]? = none := by
    rw [duplicates_ofCalls_eq_empty_iff.2 hnodup]
    rfl
  have hlabels := map_label_referencesOf calls
  rw [← (Builder.records_ofCalls calls).references_eq] at hlabels
  simp only [Builder.finish, hnone, foldlM_resolve_eq_error_iff]
  constructor
  · rintro ⟨rs, r, rs', heq, hbefore, he⟩
    rw [heq, List.map_append, List.map_cons, eq_comm, targets,
      List.filterMap_eq_append_iff] at hlabels
    obtain ⟨front, back, hcalls, hfront, hback⟩ := hlabels
    obtain ⟨idle, call, after, rfl, hidle, hcall, -⟩ := List.filterMap_eq_cons_iff.1 hback
    refine ⟨front ++ idle, call, after, r.label, by rw [hcalls, List.append_assoc], hcall, ?_, he⟩
    have htargets : targets (front ++ idle) = rs.map Reference.label := by
      rw [targets, List.filterMap_append, hfront, List.filterMap_eq_nil_iff.2 hidle,
        List.append_nil]
    rw [htargets, List.forall_mem_map]
    exact hbefore
  · rintro ⟨before, call, after, name, hcalls, hcall, hbefore, he⟩
    have htargets : targets calls = targets before ++ name :: targets after := by
      rw [hcalls, targets, List.filterMap_append, List.filterMap_cons_some hcall]
      rfl
    rw [htargets, List.map_eq_append_iff] at hlabels
    obtain ⟨rs, rest, heq, hrs, hrest⟩ := hlabels
    obtain ⟨r, rs', rfl, rfl, -⟩ := List.map_eq_cons_iff.1 hrest
    rw [← hrs, List.forall_mem_map] at hbefore
    exact ⟨rs, r, rs', heq, hbefore, he⟩

/-- A builder that finishes has met no obstacle. -/
theorem not_obstacle_of_finish {image : Array UInt8}
    (h : (Builder.ofCalls calls).finish = .ok image) (hname : name ∈ targets calls) (e : Error) :
    ¬ Obstacle calls name e := by
  obtain ⟨-, hreferences, -⟩ := Builder.finish_eq_ok h
  rw [(Builder.records_ofCalls calls).references_eq] at hreferences
  rw [← map_label_referencesOf, List.mem_map] at hname
  obtain ⟨r, hr, rfl⟩ := hname
  obtain ⟨a, ha, hle⟩ := hreferences r hr
  intro hobstacle
  cases hobstacle with
  | unbound hunbound => cases (addressOf_ofCalls_eq_none_iff.2 hunbound).symm.trans ha
  | outOfReach ha' hmax =>
    cases (addressOf_ofCalls_iff.2 ha').symm.trans ha
    exact absurd hle (Nat.not_le.2 hmax)

theorem exists_obstacle_iff :
    (∃ e, Obstacle calls name e) ↔
      name ∉ bound calls ∨ ∃ a, BoundAt calls name a ∧ Word.maxValue < a := by
  constructor
  · rintro ⟨e, hunbound | ⟨ha, hmax⟩⟩
    · exact .inl hunbound
    · exact .inr ⟨_, ha, hmax⟩
  · rintro (hunbound | ⟨a, ha, hmax⟩)
    · exact ⟨_, .unbound hunbound⟩
    · exact ⟨_, .outOfReach ha hmax⟩

/-- If no label is bound again, a builder cannot finish exactly if some reference meets an
obstacle. -/
theorem exists_finish_ofCalls_eq_error_iff (hnodup : (bound calls).Nodup) :
    (∃ e, (Builder.ofCalls calls).finish = .error e) ↔
      ∃ name ∈ targets calls, ∃ e, Obstacle calls name e := by
  constructor
  · rintro ⟨e, h⟩
    obtain ⟨before, call, after, name, rfl, hcall, -, he⟩ :=
      (finish_ofCalls_eq_error_iff hnodup).1 h
    refine ⟨name, List.mem_filterMap.2 ⟨call, ?_, hcall⟩, e, he⟩
    exact List.mem_append_right _ List.mem_cons_self
  · rintro ⟨name, hname, e, he⟩
    cases h : (Builder.ofCalls calls).finish with
    | error e' => exact ⟨e', rfl⟩
    | ok image => exact absurd he (not_obstacle_of_finish h hname e)

/-! ### All errors -/

/-- **The label errors of a builder.**  The address of a label is where the cursor was at the first
call that bound it, and never changes.  A builder cannot finish exactly if a label is bound twice,
or a label that is referred to is never bound or has an address that is no word.  The error is that
of the first label that is bound again, if there is one, and otherwise that of the first reference
that cannot be filled in. -/
theorem builder_label_errors (calls : List Call) :
    (∀ name a, (Builder.ofCalls calls).addressOf name = some a ↔ BoundAt calls name a) ∧
    (∀ name a more, (Builder.ofCalls calls).addressOf name = some a →
      (Builder.ofCalls (calls ++ more)).addressOf name = some a) ∧
    ((∃ e, (Builder.ofCalls calls).finish = .error e) ↔
      ¬ (bound calls).Nodup ∨
        ∃ name ∈ targets calls,
          name ∉ bound calls ∨ ∃ a, BoundAt calls name a ∧ Word.maxValue < a) ∧
    (¬ (bound calls).Nodup →
      ∃ before name after, calls = before ++ .label name :: after ∧ name ∈ bound before ∧
        (bound before).Nodup ∧ (Builder.ofCalls calls).finish = .error (.duplicateLabel name)) ∧
    ((bound calls).Nodup → ∀ e, (Builder.ofCalls calls).finish = .error e ↔
      ∃ before call after name, calls = before ++ call :: after ∧ call.target? = some name ∧
        (∀ other ∈ targets before, ∀ e', ¬ Obstacle calls other e') ∧ Obstacle calls name e) := by
  have hrebound : ¬ (bound calls).Nodup →
      ∃ before name after, calls = before ++ .label name :: after ∧ name ∈ bound before ∧
        (bound before).Nodup ∧
        (Builder.ofCalls calls).finish = .error (.duplicateLabel name) := by
    intro h
    obtain ⟨before, name, after, rfl, hname, hbefore⟩ := exists_first_rebound h
    exact ⟨before, name, after, rfl, hname, hbefore,
      finish_of_duplicate (duplicates_ofCalls_of_rebound hbefore hname after)⟩
  refine ⟨fun name a => addressOf_ofCalls_iff, fun name a more h => ?_, ?_, hrebound,
    fun hnodup e => finish_ofCalls_eq_error_iff hnodup⟩
  · rw [Builder.ofCalls_append]
    exact addressOf_foldl_perform h more
  · by_cases hnodup : (bound calls).Nodup
    · rw [exists_finish_ofCalls_eq_error_iff hnodup]
      simp only [hnodup, not_true_eq_false, false_or, exists_obstacle_iff]
    · obtain ⟨before, name, after, -, -, -, hfinish⟩ := hrebound hnodup
      exact iff_of_true ⟨_, hfinish⟩ (.inl hnodup)

-- the label that is bound again first, not the one that was bound first
example : (Builder.ofCalls [.wordLabel "x", .label "y", .label "z", .label "z", .label "y"]).finish =
    .error (.duplicateLabel "z") := by
  decide +kernel

end Assembly

end TapeMachine
