import Mathlib.Data.List.GetD
import Mathlib.Tactic.SplitIfs
import TapeMachine.Machine.Step

/-!
# When a check passes

The checks of the tape and of the stack, each with the condition under which it passes and what it
gives then, and with the fault it ends in otherwise.  `Tape.stray?` is the fault of a region that is
given by words; it speaks for `Tape.address` and for `Machine.region`.
-/

namespace TapeMachine

namespace Tape

variable {t : Tape} {start width : Nat} {a : Word} {n : Int} {e : Fault}

theorem reported_of_lt {n : Nat} (h : n < 9223372036854775808) : reported n = n := by
  have hsize : (UInt64.size : Int) = 18446744073709551616 := rfl
  unfold reported
  exact Int.bmod_eq_of_le (by omega) (by omega)

theorem stop?_of_le (h : start + width ≤ t.capacity) :
    t.stop? start width = some (start + width) :=
  if_pos (Nat.le_trans h (Nat.le_max_right _ _))

theorem check_of_le (h : start + width ≤ t.capacity) :
    t.check start width = .ok (start, start + width) := by
  rw [check, stop?_of_le h]
  exact if_pos h

/-- A range that does not end on the tape is refused, whether or not its end is an address. -/
theorem check_of_lt (h : t.capacity < start + width) :
    t.check start width = .error (t.outside (reported start) width) := by
  unfold check
  split
  · rfl
  · rename_i stop hstop
    obtain ⟨-, hsum⟩ := Option.ite_none_right_eq_some.1 hstop
    cases hsum
    exact if_neg (Nat.not_le.2 h)

theorem readByte_of_lt (h : start < t.capacity) : t.readByte start = .ok (t.cell start) := by
  rw [readByte, check_of_le (by omega)]
  rfl

theorem readWord_of_le (h : start + Word.width ≤ t.capacity) :
    t.readWord start = .ok (t.word start) := by
  rw [readWord, check_of_le h]
  rfl

theorem readWord_of_lt (h : t.capacity < start + Word.width) :
    t.readWord start = .error (t.outside (reported start) Word.width) := by
  rw [readWord, check_of_lt h]
  rfl

theorem readSlice_of_le (h : start + width ≤ t.capacity) :
    t.readSlice start width = .ok (t.slice start width) := by
  rw [readSlice, check_of_le h]
  rfl

/-- A region is not astray exactly when its length is not negative and it lies on the tape. -/
theorem stray?_eq_none_iff :
    t.stray? a n = none ↔ 0 ≤ n ∧ 0 ≤ a.toInt ∧ a.toInt + n ≤ t.capacity := by
  unfold stray?
  split_ifs with hn ha
  · simp only [false_iff]
    omega
  · simp only [false_iff]
    omega
  · simp only [true_iff]
    omega

/-- A fault of a region that is astray is one of bounds. -/
theorem eq_outside_of_stray? (h : t.stray? a n = some e) :
    ∃ address width, e = .bounds address width t.capacity := by
  unfold stray? at h
  split_ifs at h
  · exact ⟨_, _, (Option.some.inj h).symm⟩
  · exact ⟨_, _, (Option.some.inj h).symm⟩

theorem lt_zero_iff {v : Word} : v < 0 ↔ v.toInt < 0 := Int32.lt_iff_toInt_lt

theorem address_of_stray?_eq_none (h : t.stray? a width = none) :
    t.address a width = .ok (Machine.addressOf a) := by
  obtain ⟨-, ha, hw⟩ := stray?_eq_none_iff.1 h
  rw [address, if_neg (by rw [lt_zero_iff]; omega), check_of_le (by omega)]
  rfl

theorem address_of_stray?_eq_some (h : t.stray? a width = some e) : t.address a width = .error e := by
  have hlt := a.toInt_lt
  rw [stray?, if_neg (by omega)] at h
  split_ifs at h with hs
  rw [← Option.some.inj h, address, Int.toNat_natCast]
  by_cases ha : a.toInt < 0
  · rw [if_pos (lt_zero_iff.2 ha)]
  · rw [if_neg (by rwa [lt_zero_iff]), check_of_lt (by omega), reported_of_lt (by omega),
      Int.toNat_of_nonneg (by omega)]
    rfl

end Tape

namespace Machine

variable {m : Machine} {a n : Word} {e : Fault}

theorem region_of_stray?_eq_none (h : m.tape.stray? a n.toInt = none) :
    m.region a n = .ok (addressOf a, addressOf n) := by
  have hn := (Tape.stray?_eq_none_iff.1 h).1
  rw [← Int.toNat_of_nonneg hn] at h
  rw [region, if_neg (by rw [Tape.lt_zero_iff]; omega), Tape.address_of_stray?_eq_none h]
  rfl

theorem region_of_stray?_eq_some (h : m.tape.stray? a n.toInt = some e) :
    m.region a n = .error e := by
  by_cases hn : n.toInt < 0
  · rw [Tape.stray?, if_pos hn] at h
    rw [region, if_pos (Tape.lt_zero_iff.2 hn), Option.some.inj h]
  · rw [← Int.toNat_of_nonneg (by omega : 0 ≤ n.toInt)] at h
    rw [region, if_neg (by rwa [Tape.lt_zero_iff]), Tape.address_of_stray?_eq_some h]
    rfl

end Machine

namespace Stack

variable {s : Stack} {n : Nat} {v : Word} {instruction : String}

theorem require_of_le (h : n ≤ s.depth) : s.require n instruction = .ok () := if_neg (by omega)

theorem require_of_lt (h : s.depth < n) :
    s.require n instruction = .error (.stackUnderflow instruction n s.depth) :=
  if_pos h

theorem reserve_of_le (h : s.depth + n ≤ s.limit) : s.reserve n = .ok () := if_neg (by omega)

theorem reserve_of_lt (h : s.limit < s.depth + n) : s.reserve n = .error (.stackOverflow s.limit) :=
  if_pos h

theorem peekAt_of_lt (h : n < s.depth) : s.peekAt n instruction = .ok (s.entry n) := by
  rw [s.depth_eq] at h
  rw [peekAt, entry, List.getElem?_eq_getElem h, List.getD_eq_getElem _ _ h]

theorem peekAt_of_le (h : s.depth ≤ n) :
    s.peekAt n instruction = .error (.stackUnderflow instruction (n + 1) s.depth) := by
  rw [peekAt, List.getElem?_eq_none (by rwa [← s.depth_eq])]

theorem push_of_lt (h : s.depth < s.limit) : s.push v = .ok (s.replace 0 [v]) := by
  rw [push, reserve_of_le h]
  rfl

theorem push_of_le (h : s.limit ≤ s.depth) : s.push v = .error (.stackOverflow s.limit) := by
  rw [push, reserve_of_lt (by omega)]
  rfl

theorem pop_of_pos (h : 0 < s.depth) : s.pop instruction = .ok (s.entry 0, s.replace 1 []) := by
  rw [pop, peek, peekAt_of_lt h]
  rfl

theorem pop_of_eq_zero (h : s.depth = 0) :
    s.pop instruction = .error (.stackUnderflow instruction 1 0) := by
  rw [pop, peek, peekAt_of_le (by omega), h]
  rfl

@[simp] theorem replace_zero_nil : s.replace 0 [] = s := by
  ext1
  · simp
  · rfl

/-- Replacing twice is replacing once, when the first replacement is not cut into. -/
theorem replace_replace_nil (taken taken' : Nat) (added : List Word) :
    (s.replace taken []).replace taken' added = s.replace (taken + taken') added := by
  ext1
  · simp
  · rfl

theorem replace_zero_replace (taken : Nat) (added added' : List Word) :
    (s.replace taken added).replace 0 added' = s.replace taken (added' ++ added) := by
  ext1
  · simp
  · rfl

theorem entry_replace_nil (taken : Nat) : (s.replace taken []).entry n = s.entry (taken + n) := by
  simp [entry, List.getD_eq_getElem?_getD]

end Stack

namespace Operator

variable {o : Operator} {a b v : Word}

/-- Arithmetic is missing a result for a division by zero only. -/
theorem eval?_eq_none_iff : o.eval? a b = none ↔ (Opcode.arith o).divides = true ∧ b = 0 := by
  cases o <;> simp [eval?, Opcode.divides]

theorem apply_of_eval?_eq_some (h : o.eval? a b = some v) : o.apply a b = .ok v := by
  rw [apply, h]

theorem apply_of_eval?_eq_none (h : o.eval? a b = none) :
    o.apply a b = .error (.divisionByZero o.mnemonic) := by
  rw [apply, h]

end Operator

end TapeMachine
