import TapeMachine.Proofs.Completion
import TapeMachine.Proofs.Listings
import TapeMachine.Proofs.Numbers
import TapeMachine.Proofs.Runs

/-!
# Words as bytes and as numbers

The four bytes of a word are the digits of a number in base 256, the least significant first, and
the word differs from that number by a multiple of 2³² (`Word.modEq_ofDigits_encode`).  Four bytes
are the code of exactly one word, whatever stands behind them (`Word.decode_eq_some_iff`,
`Word.codec_round_trips`).

What an operation is to give is said in whole numbers (`Operator.Yields`).  There is one such word,
unless the operation divides by zero, and it is the one that takes the place of the operands on the
stack of a machine (`Machine.arithmetic_is_exact`).
-/

namespace TapeMachine

/-! ### Bytes -/

namespace Word

variable {v w : Word} {bytes bytes' buffer : List UInt8}

/-- The bytes of a word add up to the word, but for a multiple of 2³². -/
theorem modEq_ofDigits_encode (v : Word) :
    v.toInt ≡ (Nat.ofDigits 256 (v.encode.map UInt8.toNat) : Nat) [ZMOD 4294967296] := by
  have hlt := v.toUInt32.toNat_lt
  have hdigits : Nat.ofDigits 256 (v.encode.map UInt8.toNat) = v.toUInt32.toNat := by
    simp only [encode, List.map_cons, List.map_nil, Nat.ofDigits_cons, Nat.ofDigits_nil,
      UInt8.toNat_ofNat']
    omega
  rw [hdigits]
  exact eq_ofInt_iff.1 (ofNat_toNat v).symm

/-- A word is read from a byte string exactly if its bytes stand in front. -/
theorem decode_eq_some_iff : decode bytes = some w ↔ encode w = bytes.take width := by
  refine ⟨encode_of_decode, fun h => ?_⟩
  rw [← List.take_append_drop width bytes, ← h, decode_encode]

theorem decode_eq_none_iff : decode bytes = none ↔ bytes.length < width := by
  constructor
  · intro h
    by_contra hlong
    obtain ⟨w, hw⟩ := exists_decode (Nat.le_of_not_lt hlong)
    cases h.symm.trans hw
  · intro hshort
    rw [Option.eq_none_iff_forall_ne_some]
    intro w hw
    have hlength := congrArg List.length (decode_eq_some_iff.1 hw)
    rw [length_encode, List.length_take] at hlength
    omega

/-- Only the first four bytes matter. -/
theorem decode_eq_of_take_eq (h : bytes'.take width = bytes.take width) :
    decode bytes' = decode bytes := by
  refine Option.ext fun w => ?_
  rw [decode_eq_some_iff, decode_eq_some_iff, h]

theorem encodeInto_of_le (v : Word) (h : width ≤ buffer.length) :
    encodeInto v buffer = (true, encode v ++ buffer.drop width) :=
  if_neg (Nat.not_lt.2 h)

theorem encodeInto_of_lt (v : Word) (h : buffer.length < width) :
    encodeInto v buffer = (false, buffer) :=
  if_pos h

/-- **Words and their bytes.**  A word is written over the first four bytes of a buffer, and read
back from there, exactly if the buffer is that long; what does not fit leaves the buffer alone.
A byte string gives a word exactly if there are four bytes, which are those of the word, and what
stands behind them makes no difference.  The bytes of a word are its digits in base 256, the least
significant first. -/
theorem codec_round_trips (v : Word) (buffer bytes : List UInt8) :
    ((encodeInto v buffer).1 = true ↔ 4 ≤ buffer.length) ∧
    (4 ≤ buffer.length →
      (encodeInto v buffer).2 = encode v ++ buffer.drop 4 ∧
        decode (encodeInto v buffer).2 = some v) ∧
    (buffer.length < 4 → (encodeInto v buffer).2 = buffer) ∧
    (decode bytes = none ↔ bytes.length < 4) ∧
    (∀ w, decode bytes = some w ↔ encode w = bytes.take 4) ∧
    (∀ bytes', bytes'.take 4 = bytes.take 4 → decode bytes' = decode bytes) ∧
    (encode v).length = 4 ∧
    v.toInt ≡ (Nat.ofDigits 256 ((encode v).map UInt8.toNat) : Nat) [ZMOD 4294967296] := by
  refine ⟨?_, fun hlong => ?_, fun hshort => ?_, decode_eq_none_iff, fun w => decode_eq_some_iff,
    fun bytes' => decode_eq_of_take_eq, length_encode v, modEq_ofDigits_encode v⟩
  · by_cases hlong : 4 ≤ buffer.length
    · rw [encodeInto_of_le v hlong]
      exact iff_of_true rfl hlong
    · rw [encodeInto_of_lt v (Nat.lt_of_not_le hlong)]
      exact iff_of_false Bool.false_ne_true hlong
  · rw [encodeInto_of_le v hlong]
    exact ⟨rfl, decode_encode v _⟩
  · rw [encodeInto_of_lt v hshort]

/-- The least word but one in a buffer of five bytes, and a buffer that is too short for it. -/
theorem codec_round_trips_negative :
    encodeInto (-2147483647) [9, 9, 9, 9, 7] = (true, [1, 0, 0, 0x80, 7]) ∧
      decode [1, 0, 0, 0x80, 7] = some (-2147483647) ∧
      (encodeInto (-2147483647) [9, 9, 9]).2 = [9, 9, 9] ∧
      decode [1, 0, 0, 0x80, 0xff, 0xff] = decode [1, 0, 0, 0x80] := by
  obtain ⟨hflag, hlong, -⟩ := codec_round_trips (-2147483647) [9, 9, 9, 9, 7] []
  obtain ⟨-, -, hshort, -, -, hrest, -⟩ :=
    codec_round_trips (-2147483647) [9, 9, 9] [1, 0, 0, 0x80]
  obtain ⟨hbytes, hback⟩ := hlong (by decide)
  have hbuffer : (encodeInto (-2147483647) [9, 9, 9, 9, 7]).2 = [1, 0, 0, 0x80, 7] :=
    hbytes.trans (by decide)
  refine ⟨Prod.ext (hflag.2 (by decide)) hbuffer, ?_, hshort (by decide), hrest _ (by decide)⟩
  rw [← hbuffer]
  exact hback

end Word

/-! ### Numbers -/

/-- Words that differ by a multiple of 2³² are the same. -/
theorem Word.eq_of_modEq {v w : Word} (h : v.toInt ≡ w.toInt [ZMOD 4294967296]) : v = w := by
  rw [Word.eq_ofInt_iff.2 h, Int32.ofInt_toInt]

namespace Operator

variable {o : Operator} {a b r r' : Word} {e : Fault}

/-- The word `r` is what an operation on `a` and `b` is to give.  Sums, differences and products are
taken modulo 2³², and so are quotients, which are truncated toward zero.  A remainder is smaller
than the divisor, has the sign of the dividend, and makes up for what the quotient leaves. -/
inductive Yields : Operator → Word → Word → Word → Prop
  | add {a b r : Word} (h : r.toInt ≡ a.toInt + b.toInt [ZMOD 4294967296]) : Yields .add a b r
  | sub {a b r : Word} (h : r.toInt ≡ a.toInt - b.toInt [ZMOD 4294967296]) : Yields .sub a b r
  | mul {a b r : Word} (h : r.toInt ≡ a.toInt * b.toInt [ZMOD 4294967296]) : Yields .mul a b r
  | div {a b r : Word} (hb : b ≠ 0) (h : r.toInt ≡ a.toInt.tdiv b.toInt [ZMOD 4294967296]) :
      Yields .div a b r
  | mod {a b q r : Word} (hb : b ≠ 0) (hq : Yields .div a b q)
      (hlt : r.toInt.natAbs < b.toInt.natAbs) (hsign : r = 0 ∨ r.toInt.sign = a.toInt.sign)
      (h : q.toInt * b.toInt + r.toInt ≡ a.toInt [ZMOD 4294967296]) : Yields .mod a b r

/-- A quotient of words is the truncated quotient, which is no word itself in one case. -/
theorem div_eq_ofInt (a b : Word) : a / b = Int32.ofInt (a.toInt.tdiv b.toInt) := by
  rw [← Int32.toInt_inj, Int32.toInt_div, Int32.toInt_ofInt]

theorem yields_div_iff : Yields .div a b r ↔ b ≠ 0 ∧ a / b = r := by
  rw [div_eq_ofInt, eq_comm, Word.eq_ofInt_iff]
  constructor
  · intro h
    cases h with
    | div hb h => exact ⟨hb, h⟩
  · rintro ⟨hb, h⟩
    exact .div hb h

theorem toInt_ne_zero (hb : b ≠ 0) : b.toInt ≠ 0 := fun h => hb (Int32.toInt_inj.1 h)

/-- The remainder of words is one in the sense of `Yields`. -/
theorem yields_mod (hb : b ≠ 0) : Yields .mod a b (a % b) := by
  have hq : Yields .div a b (a / b) := yields_div_iff.2 ⟨hb, rfl⟩
  have hquotient : (a / b).toInt ≡ a.toInt.tdiv b.toInt [ZMOD 4294967296] := by
    cases hq with
    | div _ h => exact h
  refine .mod hb hq ?_ ?_ ?_
  · rw [Int32.toInt_mod, Int.natAbs_tmod]
    exact Nat.mod_lt _ (Int.natAbs_pos.2 (toInt_ne_zero hb))
  · rw [← Int32.toInt_inj, Int32.toInt_mod]
    by_cases hdvd : b.toInt ∣ a.toInt
    · exact .inl (Int.tmod_eq_zero_of_dvd hdvd)
    · exact .inr (by rw [Int.sign_tmod, if_neg hdvd])
  · rw [Int32.toInt_mod]
    refine ((hquotient.mul_right _).add_right _).trans ?_
    rw [Int.tdiv_mul_add_tmod]

/-- What makes up for the quotient is the remainder: the congruence alone tells which word it is. -/
theorem yields_mod_iff : Yields .mod a b r ↔ b ≠ 0 ∧ a % b = r := by
  constructor
  · intro h
    cases h with
    | @mod _ _ q _ hb hq hlt hsign h =>
      refine ⟨hb, Word.eq_of_modEq ?_⟩
      cases yields_mod (a := a) hb with
      | @mod _ _ q' _ _ hq' _ _ h' =>
        obtain rfl := (yields_div_iff.1 hq).2
        obtain rfl := (yields_div_iff.1 hq').2
        exact (h'.trans h.symm).add_left_cancel' _
  · rintro ⟨hb, rfl⟩
    exact yields_mod hb

/-- **An operation gives the one word that it is to give.** -/
theorem eval?_eq_some_iff : o.eval? a b = some r ↔ o.Yields a b r := by
  cases o with
  | add =>
    have hsum : a + b = Int32.ofInt (a.toInt + b.toInt) := by
      rw [Int32.ofInt_add, Int32.ofInt_toInt, Int32.ofInt_toInt]
    rw [eval?, Option.some.injEq, hsum, eq_comm, Word.eq_ofInt_iff]
    exact ⟨.add, fun hyields => by cases hyields with | add h => exact h⟩
  | sub =>
    have hdifference : a - b = Int32.ofInt (a.toInt - b.toInt) := by
      rw [Int32.ofInt_sub, Int32.ofInt_toInt, Int32.ofInt_toInt]
    rw [eval?, Option.some.injEq, hdifference, eq_comm, Word.eq_ofInt_iff]
    exact ⟨.sub, fun hyields => by cases hyields with | sub h => exact h⟩
  | mul =>
    have hproduct : a * b = Int32.ofInt (a.toInt * b.toInt) := by
      rw [Int32.ofInt_mul, Int32.ofInt_toInt, Int32.ofInt_toInt]
    rw [eval?, Option.some.injEq, hproduct, eq_comm, Word.eq_ofInt_iff]
    exact ⟨.mul, fun hyields => by cases hyields with | mul h => exact h⟩
  | div => rw [yields_div_iff, eval?, Option.ite_none_left_eq_some, Option.some.injEq]
  | mod => rw [yields_mod_iff, eval?, Option.ite_none_left_eq_some, Option.some.injEq]

theorem Yields.unique (h : o.Yields a b r) (h' : o.Yields a b r') : r = r' :=
  Option.some.inj ((eval?_eq_some_iff.2 h).symm.trans (eval?_eq_some_iff.2 h'))

theorem eval?_eq_none_iff_divisor : o.eval? a b = none ↔ (o = .div ∨ o = .mod) ∧ b = 0 := by
  rw [eval?_eq_none_iff, Machine.divides_iff, Opcode.arith.injEq, Opcode.arith.injEq]

theorem exists_yields_iff : (∃ r, o.Yields a b r) ↔ ¬ ((o = .div ∨ o = .mod) ∧ b = 0) := by
  rw [← eval?_eq_none_iff_divisor (a := a)]
  simp only [← eval?_eq_some_iff, ← Option.ne_none_iff_exists', ne_eq]

theorem apply_eq_ok_iff : o.apply a b = .ok r ↔ o.Yields a b r := by
  rw [← eval?_eq_some_iff, apply]
  cases o.eval? a b with
  | none => simp
  | some v => simp

theorem apply_eq_error_iff :
    o.apply a b = .error e ↔
      ((o = .div ∨ o = .mod) ∧ b = 0) ∧ e = .divisionByZero o.mnemonic := by
  rw [← eval?_eq_none_iff_divisor, apply, eq_comm (a := e)]
  cases o.eval? a b with
  | none => simp
  | some v => simp

end Operator

namespace Stack

variable {s : Stack} {a b : Word} {below : List Word}

theorem entries_of_toList (h : s.toList = below ++ [a, b]) :
    s.entries = b :: a :: below.reverse := by
  rw [← List.reverse_reverse s.entries, ← toList, h]
  simp

theorem toList_replace_two (h : s.toList = below ++ [a, b]) (r : Word) :
    (s.replace 2 [r]).toList = below ++ [r] := by
  rw [toList, entries_replace, entries_of_toList h]
  simp

end Stack

namespace Machine

variable {κ : Type} [Console κ] {config : Config} {m : Machine} {c : κ} {o : Operator}
  {a b r : Word} {below : List Word}

/-- The operands of a machine whose stack has `b` on top and `a` below it. -/
theorem operands_of_toList (h : m.stack.toList = below ++ [a, b]) :
    m.operand 0 = b ∧ m.operand 1 = a ∧ 2 ≤ m.stack.depth := by
  rw [operand, operand, Stack.entry, Stack.entry, m.stack.depth_eq, Stack.entries_of_toList h]
  exact ⟨rfl, rfl, Nat.le_add_left 2 _⟩

/-- An operation that has a result puts it in the place of the operands. -/
theorem step_of_yields (hm : m.WithinLimits) (hs : m.status = .running)
    (hf : m.Fetches (.arith o)) (hstack : m.stack.toList = below ++ [a, b])
    (hr : o.Yields a b r) :
    m.step c =
      ({ m with stack := m.stack.replace 2 [r], ip := m.ip + 1, steps := m.steps + 1 }, c) := by
  obtain ⟨hzero, hone, hdepth⟩ := operands_of_toList hstack
  have hdivisor : m.zeroDivisor? (.arith o) = none := by
    rw [zeroDivisor?_eq_none_iff, hzero]
    intro hd hb
    cases (Operator.eval?_eq_none_iff.2 ⟨hd, hb⟩).symm.trans (Operator.eval?_eq_some_iff.2 hr)
  have ho : m.objection? (.arith o) = none :=
    objection?_eq_none_iff.2 ⟨rfl, underflow?_eq_none_iff.2 hdepth, rfl, hdivisor, rfl⟩
  have hi : m.intent (.arith o) = .commit { taken := 2, added := [r] } := by
    rw [intent, hzero, hone, Operator.eval?_eq_some_iff.2 hr]
    rfl
  rw [step_of_commit hm hs hf ho hi]
  rfl

/-- A division by zero faults. -/
theorem step_of_zero_divisor (hm : m.WithinLimits) (hs : m.status = .running)
    (hf : m.Fetches (.arith o)) (hstack : m.stack.toList = below ++ [a, 0])
    (hd : o = .div ∨ o = .mod) :
    m.step c = (m.count.fail (.divisionByZero o.mnemonic), c) := by
  obtain ⟨hzero, -, hdepth⟩ := operands_of_toList hstack
  have hdivides : (Opcode.arith o).divides = true := by
    rcases hd with rfl | rfl <;> rfl
  exact step_of_objection hm hs hf
    (objection?_of_zeroDivisor rfl hdepth rfl (zeroDivisor?_of_eq hdivides hzero))

/-- **Arithmetic is exact modulo 2³².**  The operators give the one word that `Operator.Yields` asks
for, and there is one unless a quotient or a remainder by zero is wanted.  In every reachable
running machine that is about to execute such an instruction, this word takes the place of the
operands, the upper of which is the right one, and nothing else changes but the instruction pointer
and the count of steps.  The only fault is the division by zero. -/
theorem arithmetic_is_exact (o : Operator) (a b : Word) :
    ((∃ r, o.Yields a b r) ↔ ¬ ((o = .div ∨ o = .mod) ∧ b = 0)) ∧
    (∀ r r', o.Yields a b r → o.Yields a b r' → r = r') ∧
    (∀ r, o.apply a b = .ok r ↔ o.Yields a b r) ∧
    (∀ e, o.apply a b = .error e ↔
      ((o = .div ∨ o = .mod) ∧ b = 0) ∧ e = .divisionByZero o.mnemonic) ∧
    ∀ {κ : Type} [Console κ] {config : Config} {m : Machine} {below : List Word} (c : κ),
      Reachable config m → m.status = .running → m.Fetches (.arith o) →
      m.stack.toList = below ++ [a, b] →
      (∀ r, o.Yields a b r →
        m.step c =
          ({ m with stack := m.stack.replace 2 [r], ip := m.ip + 1, steps := m.steps + 1 }, c) ∧
        (m.step c).1.stack.toList = below ++ [r]) ∧
      ∀ f, (m.step c).1.status = .faulted f ↔
        ((o = .div ∨ o = .mod) ∧ b = 0) ∧ f = .divisionByZero o.mnemonic := by
  refine ⟨Operator.exists_yields_iff, fun r r' => Operator.Yields.unique,
    fun r => Operator.apply_eq_ok_iff, fun e => Operator.apply_eq_error_iff,
    fun {κ _ config m below} c h hs hf hstack => ?_⟩
  have hm := h.conforms.withinLimits
  refine ⟨fun r hr => ?_, fun f => ?_⟩
  · rw [step_of_yields hm hs hf hstack hr]
    exact ⟨rfl, Stack.toList_replace_two hstack r⟩
  · by_cases hzero : (o = .div ∨ o = .mod) ∧ b = 0
    · obtain ⟨hd, rfl⟩ := hzero
      rw [step_of_zero_divisor hm hs hf hstack hd]
      simp [fail, hd, eq_comm]
    · obtain ⟨r, hr⟩ := Operator.exists_yields_iff.2 hzero
      rw [step_of_yields hm hs hf hstack hr]
      refine iff_of_false (fun hfault => ?_) fun h => hzero h.1
      cases hs.symm.trans hfault

/-- A machine that is about to divide the least word by -1. -/
def dividingMachine : Machine :=
  (stepN 2 ((new { tapeCapacity := 11, maxStackDepth := 2 }).loadOrKeep
    #[0x01, 0, 0, 0, 0x80, 0x01, 0xff, 0xff, 0xff, 0xff, 0x09]) (Script.ofLines [])).1

/-- The one quotient that is no word comes out as the least word again, and the remainder is zero. -/
theorem arithmetic_is_exact_least_word :
    Operator.div.Yields (-2147483648) (-1) (-2147483648) ∧
      Operator.mod.apply (-2147483648) (-1) = .ok 0 ∧
      Reachable { tapeCapacity := 11, maxStackDepth := 2 } dividingMachine ∧
      dividingMachine.status = .running ∧ dividingMachine.Fetches (.arith .div) ∧
      dividingMachine.stack.toList = [-2147483648, -1] ∧
      (dividingMachine.step (Script.ofLines [])).1.stack.toList = [-2147483648] ∧
      ∀ f, (dividingMachine.step (Script.ofLines [])).1.status ≠ .faulted f := by
  have hdiv : Operator.div.Yields (-2147483648) (-1) (-2147483648) :=
    .div (by decide) (by decide)
  have hmod : Operator.mod.Yields (-2147483648) (-1) 0 :=
    .mod (by decide) hdiv (by decide) (.inl rfl) (by decide)
  have h : Reachable { tapeCapacity := 11, maxStackDepth := 2 } dividingMachine :=
    (Reachable.new.load _).stepN _ 2
  have hs : dividingMachine.status = .running := by rfl
  have hf : dividingMachine.Fetches (.arith .div) := ⟨by decide, by rfl⟩
  have hstack : dividingMachine.stack.toList = [] ++ [-2147483648, -1] := by rfl
  obtain ⟨-, -, happly, -⟩ := arithmetic_is_exact .mod (-2147483648) (-1)
  obtain ⟨-, -, -, -, hmachine⟩ := arithmetic_is_exact .div (-2147483648) (-1)
  obtain ⟨hresult, hfault⟩ := hmachine (Script.ofLines []) h hs hf hstack
  refine ⟨hdiv, (happly 0).2 hmod, h, hs, hf, hstack, (hresult _ hdiv).2, fun f hf => ?_⟩
  exact absurd ((hfault f).1 hf).1.2 (by decide)

end Machine

end TapeMachine
