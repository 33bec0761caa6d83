import TapeMachine.Proofs.Grammar

/-!
# Numbers in program texts

Which texts are numbers, and which words they denote, is said here without the reader.

* `Text.IsNumeral` is a numeral of a base: digits in lower or upper case, whose values add up with
  the powers of the base, however many they are;
* `Assembly.IsNumber` is a number: an optional minus sign and a numeral in decimal, or in
  hexadecimal behind `0x` or `0X`.

The reader takes exactly the numbers from -2³¹ to 2³² - 1, and gives the word that differs from the
number by a multiple of 2³² (`Assembly.numbers_read_exactly`).  What it does on the way, a magnitude
of 64 bits and a range of 33, leaves no trace: a number that is too long for it is refused.
-/

namespace TapeMachine

/-- A word is what a number leaves when multiples of 2³² are taken off. -/
theorem Word.eq_ofInt_iff {w : Word} {v : Int} :
    w = Int32.ofInt v ↔ w.toInt ≡ v [ZMOD 4294967296] := by
  have hsize : Int32.size = 4294967296 := rfl
  have hlow := w.le_toInt
  have hhigh := w.toInt_lt
  rw [← Int32.toInt_inj, Int32.toInt_ofInt, hsize, Int.bmod, Int.ModEq]
  split <;> omega

namespace Text

variable {base high n : Nat} {c : Char} {d : Nat} {cs : List Char}

/-- The character `c` is the digit of the value `d`, in lower or upper case. -/
def IsDigit (base : Nat) (c : Char) (d : Nat) : Prop :=
  d < base ∧ (c = Nat.digitChar d ∨ c = (Nat.digitChar d).toUpper)

instance : Decidable (IsDigit base c d) := inferInstanceAs (Decidable (_ ∧ _))

/-- The text `cs` is a numeral for `n`: one or more digits.  The last digit counts once, and every
other one `base` times as much as the one behind it. -/
def IsNumeral (base : Nat) (cs : List Char) (n : Nat) : Prop :=
  cs ≠ [] ∧ ∃ ds, List.Forall₂ (IsDigit base) cs ds ∧ n = Nat.ofDigits base ds.reverse

theorem isDigit_of_digitValue (h : digitValue c = some d) : IsDigit 16 c d := by
  have hascii : ∀ n < 103, ∀ d ∈ digitValue (Char.ofNat n), IsDigit 16 (Char.ofNat n) d := by decide
  have hlt : c.toNat < 103 := by
    unfold digitValue at h
    split_ifs at h with hdigit hlower hupper
    · exact Nat.lt_of_le_of_lt hdigit.2 (by decide)
    · exact Nat.lt_of_le_of_lt hlower.2 (by decide)
    · exact Nat.lt_of_le_of_lt hupper.2 (by decide)
  rw [← Char.ofNat_toNat c] at h ⊢
  exact hascii c.toNat hlt d h

theorem digitValue_of_isDigit (h : IsDigit 16 c d) : digitValue c = some d := by
  have hvalue : ∀ d < 16, digitValue (Nat.digitChar d) = some d ∧
      digitValue (Nat.digitChar d).toUpper = some d := by decide
  obtain ⟨hd, rfl | rfl⟩ := h
  · exact (hvalue d hd).1
  · exact (hvalue d hd).2

theorem digitOf_eq_some_iff (hb : base ≤ 16) : digitOf base c = some d ↔ IsDigit base c d := by
  rw [digitOf, Option.filter_eq_some_iff, decide_eq_true_eq]
  constructor
  · rintro ⟨hvalue, hlt⟩
    exact ⟨hlt, (isDigit_of_digitValue hvalue).2⟩
  · rintro ⟨hlt, hc⟩
    exact ⟨digitValue_of_isDigit ⟨Nat.lt_of_lt_of_le hlt hb, hc⟩, hlt⟩

/-- Reading digits adds them up behind what has been read before. -/
theorem readDigits_eq_some_iff (hb : base ≤ 16) :
    readDigits base high cs = some n ↔
      ∃ ds, List.Forall₂ (IsDigit base) cs ds ∧
        n = high * base ^ cs.length + Nat.ofDigits base ds.reverse := by
  induction cs generalizing high with
  | nil => simp [readDigits, List.forall₂_nil_left_iff, eq_comm]
  | cons c cs ih =>
    -- a digit moves what is in front of it up by one power
    have hmove : ∀ d (ds : List Nat), List.Forall₂ (IsDigit base) cs ds →
        (high * base + d) * base ^ cs.length + Nat.ofDigits base ds.reverse =
          high * base ^ (cs.length + 1) + Nat.ofDigits base (d :: ds).reverse := by
      intro d ds hds
      rw [Nat.ofDigits_reverse_cons, ← hds.length_eq]
      ring
    rw [readDigits, List.length_cons]
    constructor
    · intro h
      split at h
      · rename_i d hd
        obtain ⟨ds, hds, hn⟩ := ih.1 h
        exact ⟨d :: ds, .cons ((digitOf_eq_some_iff hb).1 hd) hds, hn.trans (hmove d ds hds)⟩
      · cases h
    · rintro ⟨ds, hds, hn⟩
      cases hds with
      | @cons _ d _ ds hd hds =>
        rw [(digitOf_eq_some_iff hb).2 hd]
        exact ih.2 ⟨ds, hds, hn.trans (hmove d ds hds).symm⟩

/-- The reader takes exactly the numerals. -/
theorem readNat_eq_some_iff (hb : base ≤ 16) : readNat base cs = some n ↔ IsNumeral base cs n := by
  rw [readNat, IsNumeral]
  cases cs with
  | nil => simp
  | cons c cs =>
    rw [if_neg (by simp), readDigits_eq_some_iff hb, Nat.zero_mul]
    simp only [Nat.zero_add, ne_eq, reduceCtorEq, not_false_eq_true, true_and]

/-- There is no sign among digits. -/
theorem IsNumeral.not_sign (h : IsNumeral base cs n) (hb : base ≤ 16) (hc : c ∈ cs) :
    c ≠ '+' ∧ c ≠ '-' := by
  obtain ⟨-, ds, hds, -⟩ := h
  have hsigns : ∀ d < 16, Nat.digitChar d ≠ '+' ∧ (Nat.digitChar d).toUpper ≠ '+' ∧
      Nat.digitChar d ≠ '-' ∧ (Nat.digitChar d).toUpper ≠ '-' := by decide
  obtain ⟨d, hlt, hd⟩ := Assembly.exists_of_mem_of_forall₂ hds.flip hc
  obtain ⟨hplus, hplus', hminus, hminus'⟩ := hsigns d (Nat.lt_of_lt_of_le hlt hb)
  rcases hd with rfl | rfl
  · exact ⟨hplus, hminus⟩
  · exact ⟨hplus', hminus'⟩

end Text

namespace Assembly

variable {cs : List Char} {c : Char} {n : Nat} {v v' : Int} {w : Word}

/-- The text `cs` is a numeral for `n`, in decimal, or in hexadecimal behind `0x` or `0X`. -/
inductive IsMagnitude : List Char → Nat → Prop
  | decimal {cs : List Char} {n : Nat} (h : Text.IsNumeral 10 cs n) : IsMagnitude cs n
  | hexadecimal {x : Char} {cs : List Char} {n : Nat} (hx : x = 'x' ∨ x = 'X')
      (h : Text.IsNumeral 16 cs n) : IsMagnitude ('0' :: x :: cs) n

/-- The text `cs` is a number of the value `v`: a magnitude, or a minus sign in front of one. -/
inductive IsNumber : List Char → Int → Prop
  | unsigned {cs : List Char} {n : Nat} (h : IsMagnitude cs n) : IsNumber cs n
  | negative {cs : List Char} {n : Nat} (h : IsMagnitude cs n) : IsNumber ('-' :: cs) (-n)

theorem parseMagnitude_eq_some_iff : parseMagnitude cs = some n ↔ IsMagnitude cs n := by
  have hten (cs n) : Text.readNat 10 cs = some n ↔ Text.IsNumeral 10 cs n :=
    Text.readNat_eq_some_iff (by decide)
  have hsixteen (cs n) : Text.readNat 16 cs = some n ↔ Text.IsNumeral 16 cs n :=
    Text.readNat_eq_some_iff (by decide)
  constructor
  · intro h
    unfold parseMagnitude at h
    split at h
    · exact .hexadecimal (.inl rfl) ((hsixteen _ _).1 h)
    · exact .hexadecimal (.inr rfl) ((hsixteen _ _).1 h)
    · exact .decimal ((hten _ _).1 h)
  · intro h
    cases h with
    | hexadecimal hx h =>
      rcases hx with rfl | rfl
      · exact (hsixteen _ _).2 h
      · exact (hsixteen _ _).2 h
    | decimal h =>
      -- a decimal numeral has no letter behind its first digit
      have hread := (hten _ _).2 h
      unfold parseMagnitude
      split
      · cases hread
      · cases hread
      · exact hread

/-- There is no sign in a magnitude. -/
theorem IsMagnitude.not_sign (h : IsMagnitude cs n) (hc : c ∈ cs) : c ≠ '+' ∧ c ≠ '-' := by
  cases h with
  | decimal h => exact h.not_sign (by decide) hc
  | hexadecimal hx h =>
    rcases List.mem_cons.1 hc with rfl | hc
    · decide
    rcases List.mem_cons.1 hc with rfl | hc
    · rcases hx with rfl | rfl <;> decide
    · exact h.not_sign (by decide) hc

theorem not_isMagnitude_minus : ¬ IsMagnitude ('-' :: cs) n := fun h =>
  (h.not_sign List.mem_cons_self).2 rfl

theorem IsMagnitude.unique {n' : Nat} (h : IsMagnitude cs n) (h' : IsMagnitude cs n') : n = n' :=
  Option.some.inj
    ((parseMagnitude_eq_some_iff.2 h).symm.trans (parseMagnitude_eq_some_iff.2 h'))

/-- A text is a number for one value only. -/
theorem IsNumber.unique (h : IsNumber cs v) (h' : IsNumber cs v') : v = v' := by
  cases h with
  | unsigned h =>
    cases h' with
    | unsigned h' => rw [h.unique h']
    | negative _ => exact absurd h not_isMagnitude_minus
  | negative h =>
    cases h' with
    | unsigned h' => exact absurd h' not_isMagnitude_minus
    | negative h' => rw [h.unique h']

/-- The only sign that a number may have is a minus in front. -/
theorem IsNumber.not_sign (h : IsNumber cs v) : '+' ∉ cs ∧ '-' ∉ cs.tail := by
  cases h with
  | unsigned h =>
    refine ⟨fun hc => (h.not_sign hc).1 rfl, fun hc => (h.not_sign (List.mem_of_mem_tail hc)).2 rfl⟩
  | negative h =>
    refine ⟨fun hc => ?_, fun hc => (h.not_sign hc).2 rfl⟩
    rcases List.mem_cons.1 hc with heq | hc
    · cases heq
    · exact (h.not_sign hc).1 rfl

/-! ### What the reader makes of a number -/

theorem filter_parseMagnitude_of_isMagnitude (h : IsMagnitude cs n) :
    (parseMagnitude cs).filter (· < UInt64.size) = if n < UInt64.size then some n else none := by
  rw [parseMagnitude_eq_some_iff.2 h, Option.filter_some]
  simp only [decide_eq_true_eq]

/-- A number is read as its word, unless it has no word, or not even 64 bits are enough for it. -/
theorem parseNumeral_of_isNumber (h : IsNumber cs v) :
    parseNumeral cs =
      if UInt64.size ≤ v.natAbs then .error (.notANumber (String.ofList cs))
      else if -2147483648 ≤ v ∧ v ≤ 4294967295 then .ok (Int32.ofInt v)
      else .error (.notAWord (String.ofList cs)) := by
  cases h with
  | @unsigned cs n h =>
    unfold parseNumeral
    split
    rename_i heq
    split at heq
    · exact absurd h not_isMagnitude_minus
    · cases heq
      rw [filter_parseMagnitude_of_isMagnitude h, Int.natAbs_natCast]
      by_cases hlong : UInt64.size ≤ n
      · rw [if_neg (Nat.not_lt.2 hlong), if_pos hlong]
      · rw [if_pos (Nat.lt_of_not_le hlong), if_neg hlong]
        simp only [Int.one_mul]
  | @negative cs n h =>
    simp only [parseNumeral]
    rw [filter_parseMagnitude_of_isMagnitude h, Int.natAbs_neg, Int.natAbs_natCast]
    by_cases hlong : UInt64.size ≤ n
    · rw [if_neg (Nat.not_lt.2 hlong), if_pos hlong]
    · rw [if_pos (Nat.lt_of_not_le hlong), if_neg hlong]
      simp only [Int.neg_mul, Int.one_mul]

/-- What is no number is refused. -/
theorem parseNumeral_of_not_isNumber (h : ∀ v, ¬ IsNumber cs v) :
    parseNumeral cs = .error (.notANumber (String.ofList cs)) := by
  have hnone : ∀ digits, (∀ n, ¬ IsMagnitude digits n) → parseMagnitude digits = none := by
    intro digits hdigits
    rw [Option.eq_none_iff_forall_ne_some]
    exact fun n hn => hdigits n (parseMagnitude_eq_some_iff.1 hn)
  unfold parseNumeral
  split
  rename_i heq
  split at heq
  · cases heq
    rw [hnone _ fun n hn => h _ (.negative hn)]
    rfl
  · cases heq
    rw [hnone _ fun n hn => h _ (.unsigned hn)]
    rfl

theorem parseNumeral_eq_ok_iff :
    parseNumeral cs = .ok w ↔
      ∃ v, IsNumber cs v ∧ -2147483648 ≤ v ∧ v ≤ 4294967295 ∧ w.toInt ≡ v [ZMOD 4294967296] := by
  have hsize : UInt64.size = 18446744073709551616 := rfl
  constructor
  · intro h
    by_cases hnumber : ∃ v, IsNumber cs v
    · obtain ⟨v, hv⟩ := hnumber
      rw [parseNumeral_of_isNumber hv] at h
      split_ifs at h with hlong hrange
      exact ⟨v, hv, hrange.1, hrange.2, Word.eq_ofInt_iff.1 (Except.ok.inj h).symm⟩
    · rw [parseNumeral_of_not_isNumber fun v hv => hnumber ⟨v, hv⟩] at h
      cases h
  · rintro ⟨v, hv, hlow, hhigh, hw⟩
    rw [parseNumeral_of_isNumber hv, if_neg (by omega), if_pos ⟨hlow, hhigh⟩,
      Word.eq_ofInt_iff.2 hw]

/-- What does not start with a quote is read as a number. -/
theorem parseValue_of_head? {text : List Char} (h : (Text.trim text).head? ≠ some '\x27') :
    parseValue text = parseNumeral (Text.trim text) := by
  unfold parseValue
  split
  · rename_i heq
    rw [heq] at h
    exact absurd rfl h
  · rfl

/-- **Numbers are read exactly.**  A text that does not start with a quote, after trimming, is read
as a word if and only if it is a number from -2³¹ to 2³² - 1, and the word is congruent to the
number modulo 2³².  A text is a number for one value at most, so there is no other reading of it.
There is never a plus sign or a second sign in what is read, and a number for which 64 bits are not
enough is refused like a text that is none. -/
theorem numbers_read_exactly {text : List Char} (hquote : (Text.trim text).head? ≠ some '\x27') :
    (∀ w, parseValue text = .ok w ↔
      ∃ v, IsNumber (Text.trim text) v ∧ -2147483648 ≤ v ∧ v ≤ 4294967295 ∧
        w.toInt ≡ v [ZMOD 4294967296]) ∧
    (∀ v v', IsNumber (Text.trim text) v → IsNumber (Text.trim text) v' → v = v') ∧
    (∀ w, parseValue text = .ok w → '+' ∉ Text.trim text ∧ '-' ∉ (Text.trim text).tail) ∧
    (∀ v, IsNumber (Text.trim text) v → 18446744073709551616 ≤ v.natAbs →
      parseValue text = .error (.notANumber (String.ofList (Text.trim text)))) := by
  rw [parseValue_of_head? hquote]
  refine ⟨fun w => parseNumeral_eq_ok_iff, fun v v' => IsNumber.unique, fun w hw => ?_,
    fun v hv hlong => ?_⟩
  · obtain ⟨v, hv, -⟩ := parseNumeral_eq_ok_iff.1 hw
    exact hv.not_sign
  · rw [parseNumeral_of_isNumber hv, if_pos (show UInt64.size ≤ v.natAbs from hlong)]

/-- The least word, written with more digits than 64 bits have, and 2⁶⁴ + 1, which is not taken for
a 1. -/
theorem numbers_read_exactly_limits :
    (Text.trim " -0X00000000080000000\t".toList).head? ≠ some '\x27' ∧
      parseValue " -0X00000000080000000\t".toList = .ok (-2147483648) ∧
      (Text.trim "18446744073709551617".toList).head? ≠ some '\x27' ∧
      parseValue "18446744073709551617".toList = .error (.notANumber "18446744073709551617") := by
  have hlow : Text.trim " -0X00000000080000000\t".toList = '-' :: "0X00000000080000000".toList := by
    decide +kernel
  have hlong : Text.trim "18446744073709551617".toList = "18446744073709551617".toList := by
    decide +kernel
  have hleast : IsNumber (Text.trim " -0X00000000080000000\t".toList) (-(2147483648 : Nat)) := by
    rw [hlow]
    exact .negative (parseMagnitude_eq_some_iff.1 (by decide +kernel))
  have hbeyond :
      IsNumber (Text.trim "18446744073709551617".toList) (18446744073709551617 : Nat) := by
    rw [hlong]
    exact .unsigned (parseMagnitude_eq_some_iff.1 (by decide +kernel))
  have hquote : (Text.trim " -0X00000000080000000\t".toList).head? ≠ some '\x27' := by
    decide +kernel
  have hquote' : (Text.trim "18446744073709551617".toList).head? ≠ some '\x27' := by
    decide +kernel
  refine ⟨hquote, ?_, hquote', ?_⟩
  · exact ((numbers_read_exactly hquote).1 _).2 ⟨_, hleast, by decide, by decide, by decide⟩
  · rw [(numbers_read_exactly hquote').2.2.2 _ hbeyond (by decide), hlong, String.ofList_toList]

end Assembly

end TapeMachine
