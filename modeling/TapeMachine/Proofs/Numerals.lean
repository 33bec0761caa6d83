import TapeMachine.Assembly.Literal
import TapeMachine.Text.Basic

/-!
# Numerals that are written and read

The numerals of the library are read back as the numbers they were written for, in every base up to
sixteen (`Text.readNat_toDigits`).  In program texts this concerns two forms: decimal numbers with
their sign (`Assembly.parseNumeral_toString`), which give back every word including the least one,
and the two hexadecimal digits of a byte (`Assembly.parseNumeral_hexByte`).
-/

namespace TapeMachine

namespace Text

variable {base d : Nat}

theorem digitOf_digitChar (hb : base ≤ 16) (hd : d < base) :
    digitOf base (Nat.digitChar d) = some d := by
  have hvalue : ∀ d < 16, digitValue (Nat.digitChar d) = some d := by decide
  rw [digitOf, hvalue d (by omega)]
  simp [hd]

theorem readDigits_digitChar (hb : base ≤ 16) (hd : d < base) (high : Nat) (cs : List Char) :
    readDigits base high (Nat.digitChar d :: cs) = readDigits base (high * base + d) cs := by
  rw [readDigits, digitOf_digitChar hb hd]

theorem readDigits_append (base high : Nat) (cs ds : List Char) :
    readDigits base high (cs ++ ds) =
      (readDigits base high cs).bind fun n => readDigits base n ds := by
  induction cs generalizing high with
  | nil => rfl
  | cons c cs ih =>
    rw [List.cons_append, readDigits, readDigits]
    cases digitOf base c with
    | none => rfl
    | some d => exact ih _

theorem readDigits_toDigits (hb₁ : 1 < base) (hb₂ : base ≤ 16) (n : Nat) :
    readDigits base 0 (Nat.toDigits base n) = some n := by
  induction n using Nat.strongRecOn with
  | ind n ih =>
    by_cases hn : n < base
    · rw [Nat.toDigits_of_lt_base hn, readDigits_digitChar hb₂ hn, Nat.zero_mul, Nat.zero_add]
      rfl
    · -- the last digit is the remainder, and the quotient is smaller than the number
      have hlast : n % base < base := Nat.mod_lt n (by omega)
      have hfront := ih (n / base) (Nat.div_lt_self (by omega) hb₁)
      rw [Nat.toDigits_of_base_le hb₁ (Nat.not_lt.1 hn), readDigits_append, hfront,
        Option.bind_some, readDigits_digitChar hb₂ hlast, Nat.mul_comm, Nat.div_add_mod]
      rfl

/-- A numeral is read back as the number it was written for. -/
theorem readNat_toDigits (hb₁ : 1 < base) (hb₂ : base ≤ 16) (n : Nat) :
    readNat base (Nat.toDigits base n) = some n := by
  rw [readNat, if_neg (by simp [Nat.toDigits_ne_nil]), readDigits_toDigits hb₁ hb₂]

/-- The two digits of a byte are read back. -/
theorem readNat_hexByte (b : UInt8) : readNat 16 (hexByte b).toList = some b.toNat := by
  have hb := b.toNat_lt
  rw [hexByte, String.toList_ofList, readNat, if_neg (by simp),
    readDigits_digitChar (by decide) (by omega),
    readDigits_digitChar (by decide) (Nat.mod_lt _ (by decide)), Nat.zero_mul, Nat.zero_add,
    Nat.mul_comm, Nat.div_add_mod]
  rfl

/-- The decimal digits of an integer, with a sign in front if it is negative. -/
theorem toList_toString (n : Int) :
    (toString n).toList = (if n < 0 then ['-'] else []) ++ Nat.toDigits 10 n.natAbs := by
  cases n with
  | ofNat k =>
    rw [if_neg (by simp)]
    exact Nat.toList_repr
  | negSucc k =>
    rw [if_pos (Int.negSucc_lt_zero k)]
    change ("-" ++ (k + 1).repr).toList = _
    rw [String.toList_append, Nat.toList_repr]
    rfl

theorem exists_digitChar {c : Char} (h : c.isDigit = true) : ∃ d < 10, c = Nat.digitChar d := by
  have hrange : 48 ≤ c.toNat ∧ c.toNat ≤ 57 := by
    simpa [Char.isDigit, UInt32.le_iff_toNat_le] using h
  refine ⟨c.toNat - 48, by omega, Char.toNat_inj.1 ?_⟩
  rw [Nat.toNat_digitChar_of_lt_ten (by omega)]
  omega

/-- The characters of a decimal number are a sign in front and digits. -/
theorem eq_or_exists_digitChar_of_mem_toString {n : Int} {c : Char} (h : c ∈ (toString n).toList) :
    c = '-' ∨ ∃ d < 10, c = Nat.digitChar d := by
  rw [toList_toString] at h
  rcases List.mem_append.1 h with hsign | hdigit
  · split at hsign
    · exact .inl (List.mem_singleton.1 hsign)
    · cases hsign
  · exact .inr (exists_digitChar (Nat.isDigit_of_mem_toDigits (by decide) (by decide) hdigit))

end Text

namespace Assembly

variable {cs digits : List Char} {k : Nat}

theorem parseMagnitude_toDigits (n : Nat) : parseMagnitude (Nat.toDigits 10 n) = some n := by
  have hdigit : ∀ c ∈ Nat.toDigits 10 n, c.isDigit = true := fun c hc =>
    Nat.isDigit_of_mem_toDigits (by decide) (by decide) hc
  unfold parseMagnitude
  split
  · -- a second digit `x` would be no digit
    rename_i heq
    have hx := hdigit 'x' (by simp [heq])
    cases hx
  · rename_i heq
    have hx := hdigit 'X' (by simp [heq])
    cases hx
  · exact Text.readNat_toDigits (by decide) (by decide) n

theorem filter_parseMagnitude (hk : parseMagnitude cs = some k) (hmax : k ≤ 4294967295) :
    (parseMagnitude cs).filter (· < UInt64.size) = some k := by
  have hlt : k < UInt64.size := Nat.lt_of_le_of_lt hmax (by decide)
  rw [hk, Option.filter_some, if_pos (decide_eq_true hlt)]

/-- The value of a number without a sign. -/
theorem parseNumeral_of_magnitude (hsign : cs.head? ≠ some '-') (hk : parseMagnitude cs = some k)
    (hmax : k ≤ 4294967295) : parseNumeral cs = .ok (Int32.ofInt k) := by
  have hfilter := filter_parseMagnitude hk hmax
  unfold parseNumeral
  split
  rename_i heq
  split at heq
  · exact absurd rfl hsign
  · cases heq
    simp only [hfilter, Int.one_mul]
    rw [if_pos (by omega)]

/-- The value of a number with a minus sign. -/
theorem parseNumeral_of_neg_magnitude (hk : parseMagnitude digits = some k)
    (hmax : k ≤ 2147483648) : parseNumeral ('-' :: digits) = .ok (Int32.ofInt (-k)) := by
  have hfilter := filter_parseMagnitude hk (by omega)
  simp only [parseNumeral, hfilter, Int.neg_mul, Int.one_mul]
  rw [if_pos (by omega)]

/-- Every word is read back from its decimal numeral. -/
theorem parseNumeral_toString (v : Word) : parseNumeral (toString v.toInt).toList = .ok v := by
  have hlow := v.le_toInt
  have hhigh := v.toInt_lt
  rw [Text.toList_toString]
  by_cases hneg : v.toInt < 0
  · rw [if_pos hneg, List.singleton_append,
      parseNumeral_of_neg_magnitude (parseMagnitude_toDigits _) (by omega)]
    rw [show -(v.toInt.natAbs : Int) = v.toInt by omega, Int32.ofInt_toInt]
  · have hhead : (Nat.toDigits 10 v.toInt.natAbs).head? ≠ some '-' := by
      intro hminus
      have hdigit : '-'.isDigit = true :=
        Nat.isDigit_of_mem_toDigits (by decide) (by decide) (List.mem_of_mem_head? hminus)
      cases hdigit
    rw [if_neg hneg, List.nil_append,
      parseNumeral_of_magnitude hhead (parseMagnitude_toDigits _) (by omega)]
    rw [show (v.toInt.natAbs : Int) = v.toInt by omega, Int32.ofInt_toInt]

/-- Every byte is read back from its hexadecimal numeral. -/
theorem parseNumeral_hexByte (b : UInt8) :
    parseNumeral ('0' :: 'x' :: (Text.hexByte b).toList) = .ok (Int32.ofInt b.toNat) := by
  have hb := b.toNat_lt
  exact parseNumeral_of_magnitude (by simp) (Text.readNat_hexByte b) (by omega)

end Assembly

end TapeMachine
