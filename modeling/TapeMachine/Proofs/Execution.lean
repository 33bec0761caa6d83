import TapeMachine.Proofs.Checks

/-!
# Working in place does what was intended

`Action.perform` makes its checks and its changes in one sequence, and a change may come before the
last check: `SWAP` has taken two entries off the stack before it puts the first one back, `RET` has
moved the instruction pointer before it takes its operand.  On a machine that is
`Machine.WithinLimits` none of these late checks can fail.  So executing an instruction is the same
as asking for an objection first and then carrying out the whole intent at once
(`Machine.execute_eq_follow`), and the rest of the theory argues about objections, intents and
effects only.
-/

namespace TapeMachine

namespace Machine

/-- The sizes of a machine are in order: the instruction pointer is on the tape or just behind it,
every such address is a word, and the stack keeps to its limit. -/
structure WithinLimits (m : Machine) : Prop where
  ip_le : m.ip ≤ m.tape.capacity
  capacity_le : m.tape.capacity ≤ Word.maxValue
  depth_le : m.stack.depth ≤ m.stack.limit

variable {κ : Type} [Console κ]

/-- Do what an instruction intends, unless there is an objection. -/
def follow (m : Machine) (op : Opcode) (c : κ) : Machine × κ :=
  match m.objection? op with
  | some e => (m.fail e, c)
  | none =>
    match m.intent op with
    | .commit e => (m.commit op e, c)
    | .ask r effect =>
      match Console.respond r c with
      | (.ok a, c) => (m.commit op (effect a), c)
      | (.error e, c) => (m.fail e.toFault, c)

variable {m : Machine} {op : Opcode} {c c' : κ}

theorem follow_of_objection {e : Fault} (h : m.objection? op = some e) :
    m.follow op c = (m.fail e, c) := by
  simp only [follow, h]

theorem follow_of_commit {e : Effect} (h : m.objection? op = none) (hi : m.intent op = .commit e) :
    m.follow op c = (m.commit op e, c) := by
  simp only [follow, h, hi]

theorem follow_of_answer {r : Request} {effect : r.Answer → Effect} {a : r.Answer}
    (h : m.objection? op = none) (hi : m.intent op = .ask r effect)
    (hr : Console.respond r c = (.ok a, c')) : m.follow op c = (m.commit op (effect a), c') := by
  simp only [follow, h, hi, hr]

theorem follow_of_refusal {r : Request} {effect : r.Answer → Effect} {e : ConsoleError}
    (h : m.objection? op = none) (hi : m.intent op = .ask r effect)
    (hr : Console.respond r c = (.error e, c')) : m.follow op c = (m.fail e.toFault, c') := by
  simp only [follow, h, hi, hr]

end Machine

/-! ### The parts of an action -/

namespace Action

variable {κ α β : Type} {m : Machine} {c c' : κ} {f : Machine → Except Fault α} {a : α} {e : Fault}
  {k : α → Action κ β}

theorem bind_apply {x : Action κ α} (s : Machine × κ) :
    (x >>= k) s = match x s with
      | .ok a s => k a s
      | .error e s => .error e s := by
  change EStateM.bind x k s = _
  rw [EStateM.bind]
  cases x s <;> rfl

theorem look_bind_ok (h : f m = .ok a) : (look f >>= k) (m, c) = k a (m, c) := by
  simp only [bind_apply, look, h]

theorem look_bind_error (h : f m = .error e) : (look f >>= k) (m, c) = .error e (m, c) := by
  simp only [bind_apply, look, h]

theorem view_bind {f : Machine → α} : (view f >>= k) (m, c) = k (f m) (m, c) := rfl

theorem operands_bind_of_le {i : String} {k : Word × Word → Action κ β} (h : 2 ≤ m.stack.depth) :
    (operands i >>= k) (m, c) = k (m.operand 1, m.operand 0) (m, c) := by
  rw [bind_apply, operands, look_bind_ok (Stack.require_of_le h),
    look_bind_ok (Stack.peekAt_of_lt (by omega)), look_bind_ok (Stack.peekAt_of_lt (by omega))]
  rfl

theorem operands_bind_of_lt {i : String} {k : Word × Word → Action κ β} (h : m.stack.depth < 2) :
    (operands i >>= k) (m, c) = .error (.stackUnderflow i 2 m.stack.depth) (m, c) := by
  rw [bind_apply, operands, look_bind_error (Stack.require_of_lt h)]

theorem push_bind_of_lt {v : Word} {k : Unit → Action κ β} (h : m.stack.depth < m.stack.limit) :
    (push v >>= k) (m, c) = k () ({ m with stack := m.stack.replace 0 [v] }, c) := by
  simp only [bind_apply, push, Stack.push_of_lt h]

theorem push_bind_of_le {v : Word} {k : Unit → Action κ β} (h : m.stack.limit ≤ m.stack.depth) :
    (push v >>= k) (m, c) = .error (.stackOverflow m.stack.limit) (m, c) := by
  simp only [bind_apply, push, Stack.push_of_le h]

theorem pop_bind_of_pos {i : String} {k : Word → Action κ β} (h : 0 < m.stack.depth) :
    (pop i >>= k) (m, c) = k (m.operand 0) ({ m with stack := m.stack.replace 1 [] }, c) := by
  simp only [bind_apply, pop, Stack.pop_of_pos h]
  rfl

theorem pop_bind_of_eq_zero {i : String} {k : Word → Action κ β} (h : m.stack.depth = 0) :
    (pop i >>= k) (m, c) = .error (.stackUnderflow i 1 m.stack.depth) (m, c) := by
  simp only [bind_apply, pop, Stack.pop_of_eq_zero h, h]

theorem write_bind_of_le {start : Nat} {bytes : List UInt8} {k : Unit → Action κ β}
    (h : start + bytes.length ≤ m.tape.capacity) :
    (write start bytes >>= k) (m, c) = k () ({ m with tape := m.tape.put start bytes }, c) := by
  simp only [bind_apply, write, Tape.check_of_le h]

theorem goTo_bind {address : Nat} {k : Unit → Action κ β} :
    (goTo address >>= k) (m, c) = k () ({ m with ip := address }, c) :=
  rfl

theorem setFlags_bind {f : Flags → Flags} {k : Unit → Action κ β} :
    (setFlags f >>= k) (m, c) = k () ({ m with flags := f m.flags }, c) :=
  rfl

variable [Console κ]

theorem ask_bind_ok {r : Request} {a : r.Answer} {k : r.Answer → Action κ β}
    (h : Console.respond r c = (.ok a, c')) : (ask r >>= k) (m, c) = k a (m, c') := by
  simp only [bind_apply, ask, h]

theorem ask_bind_error {r : Request} {e : ConsoleError} {k : r.Answer → Action κ β}
    (h : Console.respond r c = (.error e, c')) :
    (ask r >>= k) (m, c) = .error e.toFault (m, c') := by
  simp only [bind_apply, ask, h]

end Action

/-! ### Rules for the checks on the way

Each rule is about an instruction that goes on with a check that may fail.  A failure is what the
objection says, and otherwise it is left to argue about the rest of the instruction, with what the
check has found out.
-/

namespace Machine

open TapeMachine.Action

variable {κ : Type} [Console κ] {m : Machine} {op : Opcode} {c : κ}

theorem follow_of_failure {x : EStateM.Result Fault (Machine × κ) Sequel} {e : Fault}
    (hx : x = .error e (m, c)) (ho : m.objection? op = some e) :
    conclude op x = m.follow op c := by
  rw [hx, follow_of_objection ho]
  rfl

/-- An instruction without an immediate looks for its operands first. -/
theorem conclude_of_operands {x : EStateM.Result Fault (Machine × κ) Sequel}
    (hi : op.hasImmediate = false)
    (hx : m.stack.depth < op.operandCount →
      x = .error (.stackUnderflow op.mnemonic op.operandCount m.stack.depth) (m, c))
    (h : op.operandCount ≤ m.stack.depth → conclude op x = m.follow op c) :
    conclude op x = m.follow op c := by
  by_cases hu : m.stack.depth < op.operandCount
  · have ht : m.truncated? op = none := truncated?_eq_none_iff.2 (by simp [hi])
    exact follow_of_failure (hx hu) (objection?_of_underflow ht hu)
  · exact h (Nat.not_lt.1 hu)

theorem conclude_peek_bind {k : Word → Action κ Sequel} (hn : op.operandCount = 1)
    (hi : op.hasImmediate = false)
    (h : 1 ≤ m.stack.depth → conclude op (k (m.operand 0) (m, c)) = m.follow op c) :
    conclude op ((look (·.stack.peek op.mnemonic) >>= k) (m, c)) = m.follow op c := by
  refine conclude_of_operands hi (fun hu => ?_) fun hu => ?_ <;> rw [hn] at *
  · exact look_bind_error (Stack.peekAt_of_le (Nat.le_of_lt_succ hu))
  · rw [look_bind_ok (Stack.peekAt_of_lt hu)]
    exact h hu

theorem conclude_pop_bind {k : Word → Action κ Sequel} (hn : op.operandCount = 1)
    (hi : op.hasImmediate = false)
    (h : 1 ≤ m.stack.depth →
      conclude op (k (m.operand 0) ({ m with stack := m.stack.replace 1 [] }, c)) =
        m.follow op c) :
    conclude op ((pop op.mnemonic >>= k) (m, c)) = m.follow op c := by
  refine conclude_of_operands hi (fun hu => ?_) fun hu => ?_ <;> rw [hn] at *
  · exact pop_bind_of_eq_zero (Nat.lt_one_iff.1 hu)
  · rw [pop_bind_of_pos hu]
    exact h hu

theorem conclude_operands_bind {k : Word × Word → Action κ Sequel} (hn : op.operandCount = 2)
    (hi : op.hasImmediate = false)
    (h : 2 ≤ m.stack.depth → conclude op (k (m.operand 1, m.operand 0) (m, c)) = m.follow op c) :
    conclude op ((operands op.mnemonic >>= k) (m, c)) = m.follow op c := by
  refine conclude_of_operands hi (fun hu => ?_) fun hu => ?_ <;> rw [hn] at *
  · exact operands_bind_of_lt hu
  · rw [operands_bind_of_le hu]
    exact h hu

theorem conclude_require_bind {k : Unit → Action κ Sequel} (hn : op.operandCount = 2)
    (hi : op.hasImmediate = false)
    (h : 2 ≤ m.stack.depth → conclude op (k () (m, c)) = m.follow op c) :
    conclude op ((look (·.stack.require 2 op.mnemonic) >>= k) (m, c)) = m.follow op c := by
  refine conclude_of_operands hi (fun hu => ?_) fun hu => ?_ <;> rw [hn] at *
  · exact look_bind_error (Stack.require_of_lt hu)
  · rw [look_bind_ok (Stack.require_of_le hu)]
    exact h hu

theorem conclude_immediate_bind {k : Word → Action κ Sequel} (hm : m.WithinLimits)
    (hi : op.hasImmediate = true)
    (h : m.truncated? op = none → conclude op (k m.immediate (m, c)) = m.follow op c) :
    conclude op ((look (·.readImmediate) >>= k) (m, c)) = m.follow op c := by
  have hsize := Opcode.size_of_hasImmediate hi
  by_cases ht : m.tape.capacity < m.ip + op.size
  · refine follow_of_failure ?_ (objection?_of_truncated hi ht)
    -- the address is a word, and far too small to be reported as another one
    have hip := hm.ip_le
    have hc := hm.capacity_le
    unfold Word.maxValue at hc
    rw [hsize] at ht
    refine look_bind_error ?_
    rw [readImmediate, Tape.readWord_of_lt (by omega), Tape.reported_of_lt (by omega)]
  · rw [look_bind_ok (Tape.readWord_of_le (by omega))]
    exact h (truncated?_eq_none_iff.2 fun _ => Nat.not_lt.1 ht)

/-- An instruction with its immediate and its operands looks at the addresses next. -/
theorem conclude_of_reach {x : EStateM.Result Fault (Machine × κ) Sequel} {a : Word} {n : Int}
    (hr : m.reach? op = some (a, n)) (ht : m.truncated? op = none)
    (hu : op.operandCount ≤ m.stack.depth)
    (hx : ∀ e, m.tape.stray? a n = some e → x = .error e (m, c))
    (h : m.tape.stray? a n = none → conclude op x = m.follow op c) :
    conclude op x = m.follow op c := by
  cases hs : m.tape.stray? a n with
  | some e =>
    have hstray : m.stray? op = some e := (stray?_of_reach?_eq_some hr).trans hs
    exact follow_of_failure (hx e hs) (objection?_of_stray ht hu hstray)
  | none => exact h hs

theorem conclude_address_bind {a : Word} {n : Nat} {k : Nat → Action κ Sequel}
    (hr : m.reach? op = some (a, (n : Int))) (ht : m.truncated? op = none)
    (hu : op.operandCount ≤ m.stack.depth)
    (h : m.tape.stray? a n = none → conclude op (k (addressOf a) (m, c)) = m.follow op c) :
    conclude op ((look (·.tape.address a n) >>= k) (m, c)) = m.follow op c := by
  refine conclude_of_reach hr ht hu (fun e hs => ?_) fun hs => ?_
  · exact look_bind_error (Tape.address_of_stray?_eq_some hs)
  · rw [look_bind_ok (Tape.address_of_stray?_eq_none hs)]
    exact h hs

theorem conclude_region_bind {a n : Word} {k : Nat × Nat → Action κ Sequel}
    (hr : m.reach? op = some (a, n.toInt)) (ht : m.truncated? op = none)
    (hu : op.operandCount ≤ m.stack.depth)
    (h : m.tape.stray? a n.toInt = none →
      conclude op (k (addressOf a, addressOf n) (m, c)) = m.follow op c) :
    conclude op ((look (·.region a n) >>= k) (m, c)) = m.follow op c := by
  refine conclude_of_reach hr ht hu (fun e hs => ?_) fun hs => ?_
  · exact look_bind_error (region_of_stray?_eq_some hs)
  · rw [look_bind_ok (region_of_stray?_eq_none hs)]
    exact h hs

/-- The rule for an entry that is put on the stack and takes the room of no other. -/
theorem conclude_push_bind {v : Word} (hg : op.grows = true) (ht : m.truncated? op = none)
    (hu : op.operandCount ≤ m.stack.depth) (hs : m.stray? op = none)
    (hz : m.zeroDivisor? op = none) (hi : m.intent op = .commit { added := [v] }) :
    conclude op ((push v >>= fun _ => pure Sequel.advance) (m, c)) = m.follow op c := by
  by_cases hl : m.stack.depth < m.stack.limit
  · have ho : m.objection? op = none := objection?_eq_none_iff.2
      ⟨ht, underflow?_eq_none_iff.2 hu, hs, hz, overflow?_eq_none_iff.2 fun _ => hl⟩
    rw [push_bind_of_lt hl, follow_of_commit ho hi]
    rfl
  · have hle := Nat.not_lt.1 hl
    exact follow_of_failure (push_bind_of_le hle)
      (objection?_of_overflow ht hu hs hz (overflow?_of_le hg hle))

/-- The rule for the console.  It is asked when there is nothing left to object to. -/
theorem conclude_ask_bind {r : Request} {effect : r.Answer → Effect} {k : r.Answer → Action κ Sequel}
    (ho : m.objection? op = none) (hi : m.intent op = .ask r effect)
    (h : ∀ a c', conclude op (k a (m, c')) = (m.commit op (effect a), c')) :
    conclude op ((ask r >>= k) (m, c)) = m.follow op c := by
  rcases hr : Console.respond r c with ⟨e | a, c'⟩
  · rw [ask_bind_error hr, follow_of_refusal ho hi hr]
    rfl
  · rw [ask_bind_ok hr, follow_of_answer ho hi hr, h]

/-! ### One instruction at a time -/

theorem conclude_push (hm : m.WithinLimits) (hop : op = .push ∨ op = .const) :
    conclude op (perform op (m, c)) = m.follow op c := by
  rcases hop with rfl | rfl
  all_goals
    simp only [perform]
    refine conclude_immediate_bind hm rfl fun ht => ?_
    exact conclude_push_bind rfl ht (Nat.zero_le _) rfl rfl rfl

theorem conclude_pop : conclude .pop (perform .pop (m, c)) = m.follow .pop c := by
  simp only [perform]
  refine conclude_pop_bind rfl rfl fun hu => ?_
  have ho : m.objection? .pop = none := objection?_eq_none_of_operands rfl rfl rfl hu rfl
  rw [follow_of_commit ho rfl]
  rfl

theorem conclude_load (hm : m.WithinLimits) :
    conclude .load (perform .load (m, c)) = m.follow .load c := by
  have hd := hm.depth_le
  simp only [perform]
  refine conclude_peek_bind rfl rfl fun hu => conclude_address_bind rfl rfl hu fun hs => ?_
  have ho : m.objection? .load = none := objection?_eq_none_of_operands rfl rfl rfl hu hs
  have hw := (Tape.stray?_eq_none_iff.1 hs).2
  -- the entry taken off makes the room for the word that is pushed
  have hroom : (m.stack.replace 1 []).depth < m.stack.limit := by simp; omega
  rw [look_bind_ok (Tape.readWord_of_le (by unfold addressOf; omega)), pop_bind_of_pos hu,
    push_bind_of_lt hroom, follow_of_commit ho rfl, Stack.replace_replace_nil]
  rfl

theorem conclude_store : conclude .store (perform .store (m, c)) = m.follow .store c := by
  simp only [perform]
  refine conclude_operands_bind rfl rfl fun hu => ?_
  refine conclude_address_bind (a := m.operand 1) rfl rfl hu fun hs => ?_
  have ho : m.objection? .store = none := objection?_eq_none_of_operands rfl rfl rfl hu hs
  have hw := (Tape.stray?_eq_none_iff.1 hs).2
  have hfit : addressOf (m.operand 1) + (m.operand 0).encode.length ≤ m.tape.capacity := by
    rw [Word.length_encode]; unfold addressOf; omega
  rw [write_bind_of_le hfit, pop_bind_of_pos (by simp; omega), pop_bind_of_pos (by simp; omega),
    follow_of_commit ho rfl]
  simp only [Stack.replace_replace_nil]
  rfl

theorem conclude_arith (hm : m.WithinLimits) (o : Operator) :
    conclude (.arith o) (perform (.arith o) (m, c)) = m.follow (.arith o) c := by
  have hd := hm.depth_le
  simp only [perform]
  refine conclude_operands_bind rfl rfl fun hu => ?_
  cases hv : o.eval? (m.operand 1) (m.operand 0) with
  | none =>
    obtain ⟨hdiv, hzero⟩ := Operator.eval?_eq_none_iff.1 hv
    exact follow_of_failure (look_bind_error (Operator.apply_of_eval?_eq_none hv))
      (objection?_of_zeroDivisor rfl hu rfl (zeroDivisor?_of_eq hdiv hzero))
  | some v =>
    have hz : m.zeroDivisor? (.arith o) = none := by
      refine zeroDivisor?_eq_none_iff.2 fun hdiv hzero => ?_
      rw [Operator.eval?_eq_none_iff.2 ⟨hdiv, hzero⟩] at hv
      cases hv
    have ho : m.objection? (.arith o) = none :=
      objection?_eq_none_iff.2 ⟨rfl, underflow?_eq_none_iff.2 hu, rfl, hz, rfl⟩
    have hi : m.intent (.arith o) = .commit { taken := 2, added := [v] } := by
      simp only [intent, hv, Option.getD_some]
    have hroom : (m.stack.replace 2 []).depth < m.stack.limit := by simp; omega
    rw [look_bind_ok (Operator.apply_of_eval?_eq_some hv), pop_bind_of_pos (by omega),
      pop_bind_of_pos (by simp; omega)]
    simp only [Stack.replace_replace_nil]
    rw [push_bind_of_lt hroom, follow_of_commit ho hi, Stack.replace_replace_nil]
    rfl

theorem conclude_call (hm : m.WithinLimits) :
    conclude .call (perform .call (m, c)) = m.follow .call c := by
  have hd := hm.depth_le
  simp only [perform]
  refine conclude_peek_bind rfl rfl fun hu => conclude_address_bind rfl rfl hu fun hs => ?_
  have ho : m.objection? .call = none := objection?_eq_none_of_operands rfl rfl rfl hu hs
  have hroom : (m.stack.replace 1 []).depth < m.stack.limit := by simp; omega
  rw [view_bind, pop_bind_of_pos hu, push_bind_of_lt hroom, goTo_bind, follow_of_commit ho rfl,
    Stack.replace_replace_nil]
  rfl

theorem conclude_ret : conclude .ret (perform .ret (m, c)) = m.follow .ret c := by
  simp only [perform]
  refine conclude_peek_bind rfl rfl fun hu => conclude_address_bind rfl rfl hu fun hs => ?_
  have ho : m.objection? .ret = none := objection?_eq_none_of_operands rfl rfl rfl hu hs
  -- the instruction pointer has moved, but the operand that was looked at is still there
  rw [goTo_bind, pop_bind_of_pos (by simp; omega), follow_of_commit ho rfl]
  rfl

theorem conclude_dup : conclude .dup (perform .dup (m, c)) = m.follow .dup c := by
  simp only [perform]
  refine conclude_peek_bind rfl rfl fun hu => ?_
  exact conclude_push_bind rfl rfl hu rfl rfl rfl

theorem conclude_swap (hm : m.WithinLimits) :
    conclude .swap (perform .swap (m, c)) = m.follow .swap c := by
  have hd := hm.depth_le
  simp only [perform]
  refine conclude_require_bind rfl rfl fun hu => ?_
  have ho : m.objection? .swap = none := objection?_eq_none_of_operands rfl rfl rfl hu rfl
  -- with two entries gone there is room for both of them, even if the stack was full
  rw [pop_bind_of_pos (by omega), pop_bind_of_pos (by simp; omega),
    push_bind_of_lt (by simp; omega), push_bind_of_lt (by simp; omega), follow_of_commit ho rfl]
  simp only [Stack.replace_replace_nil, Stack.replace_zero_replace, operand,
    Stack.entry_replace_nil]
  rfl

theorem conclude_cmp : conclude .cmp (perform .cmp (m, c)) = m.follow .cmp c := by
  simp only [perform]
  refine conclude_require_bind rfl rfl fun hu => ?_
  have ho : m.objection? .cmp = none := objection?_eq_none_of_operands rfl rfl rfl hu rfl
  rw [pop_bind_of_pos (by omega), pop_bind_of_pos (by simp; omega), setFlags_bind,
    follow_of_commit ho rfl]
  simp only [Stack.replace_replace_nil, operand, Stack.entry_replace_nil]
  rfl

theorem conclude_test : conclude .test (perform .test (m, c)) = m.follow .test c := by
  simp only [perform]
  refine conclude_pop_bind rfl rfl fun hu => ?_
  have ho : m.objection? .test = none := objection?_eq_none_of_operands rfl rfl rfl hu rfl
  rw [setFlags_bind, follow_of_commit ho rfl]
  rfl

theorem conclude_jump (hm : m.WithinLimits) :
    conclude .jump (perform .jump (m, c)) = m.follow .jump c := by
  simp only [perform]
  refine conclude_immediate_bind hm rfl fun ht => ?_
  refine conclude_address_bind rfl ht (Nat.zero_le _) fun hs => ?_
  have ho : m.objection? .jump = none := objection?_eq_none_iff.2 ⟨ht, rfl, hs, rfl, rfl⟩
  rw [goTo_bind, follow_of_commit ho rfl]
  simp only [commit, Stack.replace_zero_nil]
  rfl

theorem conclude_jumpIf (hm : m.WithinLimits) (b : Condition) :
    conclude (.jumpIf b) (perform (.jumpIf b) (m, c)) = m.follow (.jumpIf b) c := by
  simp only [perform]
  refine conclude_immediate_bind hm rfl fun ht => ?_
  rw [view_bind]
  cases hb : m.flags.holds b with
  | false =>
    -- the destination of a jump that is not taken is not looked at
    have hs : m.stray? (.jumpIf b) = none := stray?_of_reach?_eq_none (by simp [reach?, hb])
    have ho : m.objection? (.jumpIf b) = none := objection?_eq_none_iff.2 ⟨ht, rfl, hs, rfl, rfl⟩
    have hi : m.intent (.jumpIf b) = .commit {} := by simp [intent, hb]
    rw [follow_of_commit ho hi]
    simp only [commit, Stack.replace_zero_nil]
    rfl
  | true =>
    have hr : m.reach? (.jumpIf b) = some (m.immediate, 1) := by simp [reach?, hb]
    simp only [if_true]
    refine conclude_address_bind hr ht (Nat.zero_le _) fun hs => ?_
    have ho : m.objection? (.jumpIf b) = none :=
      objection?_eq_none_iff.2 ⟨ht, rfl, (stray?_of_reach?_eq_some hr).trans hs, rfl, rfl⟩
    have hi : m.intent (.jumpIf b) = .commit { flow := .jump (addressOf m.immediate) } := by
      simp [intent, hb]
    rw [goTo_bind, follow_of_commit ho hi]
    simp only [commit, Stack.replace_zero_nil]
    rfl

theorem conclude_printInt : conclude .printInt (perform .printInt (m, c)) = m.follow .printInt c := by
  simp only [perform]
  refine conclude_peek_bind rfl rfl fun hu => ?_
  refine conclude_ask_bind (objection?_eq_none_of_operands rfl rfl rfl hu rfl) rfl fun _ c' => ?_
  rw [pop_bind_of_pos hu]
  rfl

theorem conclude_printString :
    conclude .printString (perform .printString (m, c)) = m.follow .printString c := by
  simp only [perform]
  refine conclude_operands_bind rfl rfl fun hu => ?_
  refine conclude_region_bind (a := m.operand 1) (n := m.operand 0) rfl rfl hu fun hs => ?_
  have hw := Tape.stray?_eq_none_iff.1 hs
  rw [look_bind_ok (Tape.readSlice_of_le (by unfold addressOf; omega))]
  refine conclude_ask_bind (objection?_eq_none_of_operands rfl rfl rfl hu hs) rfl fun _ c' => ?_
  rw [pop_bind_of_pos (by omega), pop_bind_of_pos (by simp; omega)]
  simp only [Stack.replace_replace_nil]
  rfl

theorem conclude_readInt : conclude .readInt (perform .readInt (m, c)) = m.follow .readInt c := by
  simp only [perform]
  by_cases hl : m.stack.depth < m.stack.limit
  · have ho : m.objection? .readInt = none :=
      objection?_eq_none_iff.2 ⟨rfl, rfl, rfl, rfl, overflow?_eq_none_iff.2 fun _ => hl⟩
    rw [look_bind_ok (Stack.reserve_of_le hl)]
    refine conclude_ask_bind ho rfl fun v c' => ?_
    rw [push_bind_of_lt hl]
    rfl
  · have hle := Nat.not_lt.1 hl
    exact follow_of_failure (look_bind_error (Stack.reserve_of_lt (Nat.lt_succ_of_le hle)))
      (objection?_of_overflow rfl (Nat.zero_le _) rfl rfl (overflow?_of_le rfl hle))

theorem conclude_readString (hm : m.WithinLimits) :
    conclude .readString (perform .readString (m, c)) = m.follow .readString c := by
  have hd := hm.depth_le
  simp only [perform]
  refine conclude_operands_bind rfl rfl fun hu => ?_
  refine conclude_region_bind (a := m.operand 1) (n := m.operand 0) rfl rfl hu fun hs => ?_
  have hw := Tape.stray?_eq_none_iff.1 hs
  have hroom : (m.stack.replace 2 []).depth < m.stack.limit := by simp; omega
  refine conclude_ask_bind (objection?_eq_none_of_operands rfl rfl rfl hu hs) rfl fun line c' => ?_
  rw [pop_bind_of_pos (by omega), pop_bind_of_pos (by simp; omega)]
  simp only [Stack.replace_replace_nil]
  by_cases hl : addressOf (m.operand 0) < (Utf8.encode line.toList).length
  · rw [storeLine, if_pos hl, if_pos hl, push_bind_of_lt hroom, Stack.replace_replace_nil]
    rfl
  · -- the whole region has been checked, and the line is no longer than that
    have hfit : addressOf (m.operand 1) + (Utf8.encode line.toList).length ≤ m.tape.capacity := by
      unfold addressOf at hl ⊢; omega
    rw [storeLine, if_neg hl, if_neg hl, write_bind_of_le (by exact hfit), push_bind_of_lt hroom,
      Stack.replace_replace_nil]
    rfl

theorem conclude_nop : conclude .nop (perform .nop (m, c)) = m.follow .nop c := by
  rw [follow_of_commit rfl rfl]
  simp only [commit, Stack.replace_zero_nil]
  rfl

theorem conclude_halt : conclude .halt (perform .halt (m, c)) = m.follow .halt c := by
  rw [follow_of_commit rfl rfl]
  simp only [commit, Stack.replace_zero_nil]
  rfl

/-- **Working in place does what was intended.**  On a machine within its limits no check fails
after something has been changed, so an instruction either meets its objection at once or does all
it intends. -/
theorem execute_eq_follow (hm : m.WithinLimits) : m.execute op c = m.count.follow op c := by
  have hm' : m.count.WithinLimits := ⟨hm.ip_le, hm.capacity_le, hm.depth_le⟩
  cases op with
  | nop => exact conclude_nop
  | push => exact conclude_push hm' (.inl rfl)
  | pop => exact conclude_pop
  | const => exact conclude_push hm' (.inr rfl)
  | load => exact conclude_load hm'
  | store => exact conclude_store
  | arith o => exact conclude_arith hm' o
  | call => exact conclude_call hm'
  | ret => exact conclude_ret
  | dup => exact conclude_dup
  | swap => exact conclude_swap hm'
  | cmp => exact conclude_cmp
  | test => exact conclude_test
  | jump => exact conclude_jump hm'
  | jumpIf b => exact conclude_jumpIf hm' b
  | printInt => exact conclude_printInt
  | printString => exact conclude_printString
  | readInt => exact conclude_readInt
  | readString => exact conclude_readString hm'
  | halt => exact conclude_halt

end Machine

end TapeMachine
