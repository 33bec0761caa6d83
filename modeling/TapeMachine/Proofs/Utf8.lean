import Mathlib.Tactic.SplitIfs
import TapeMachine.Text.Utf8

/-!
# Reading back UTF-8

A text is read back from its bytes (`Utf8.decode?_encode`), character by character
(`Utf8.next_encodeChar`).  The bytes below 0x80 stand for characters of their own
(`Utf8.toNat_eq_of_mem_encodeChar`), so splitting the bytes of a text at one of them is splitting
the text.
-/

namespace TapeMachine

namespace Utf8

/-! ### One character -/

theorem isTail_of_le {n : Nat} (h : 0x80 ≤ n) (h' : n ≤ 0xbf) : isTail n = true := by
  simp [isTail, h, h']

/-- The second byte of a character is in the range that the first one allows.  Four first bytes
narrow it: two against forms that are too long, one against surrogates and one against numbers that
are too great. -/
theorem exists_secondRange {a b : Nat} (ha : 0xc2 ≤ a) (ha' : a ≤ 0xf4) (hb : 0x80 ≤ b)
    (hb' : b ≤ 0xbf) (he0 : a = 0xe0 → 0xa0 ≤ b) (hed : a = 0xed → b ≤ 0x9f)
    (hf0 : a = 0xf0 → 0x90 ≤ b) (hf4 : a = 0xf4 → b ≤ 0x8f) :
    ∃ low high, secondRange a = some (low, high) ∧ low ≤ b ∧ b ≤ high := by
  unfold secondRange
  split_ifs with h h_e0 h_ed h_f0 h_f4 h_lt
  · omega
  · exact ⟨_, _, rfl, he0 h_e0, hb'⟩
  · exact ⟨_, _, rfl, hb, hed h_ed⟩
  · exact ⟨_, _, rfl, hf0 h_f0, hb'⟩
  · exact ⟨_, _, rfl, hb, hf4 h_f4⟩
  · exact ⟨_, _, rfl, hb, hb'⟩
  · omega

section

variable {v : Nat} {rest : List UInt8}

theorem toNat_ofNat_of_lt (h : v < 256) : (UInt8.ofNat v).toNat = v := by
  rw [UInt8.toNat_ofNat']
  omega

theorem next_one (h : v ≤ 0x7f) : next (.ofNat v) rest = ⟨some (Char.ofNat v), rest⟩ := by
  have ha := toNat_ofNat_of_lt (v := v) (by omega)
  simp only [next, ha]
  rw [if_pos (by omega)]

theorem next_two (h : 0x7f < v) (h' : v ≤ 0x7ff) :
    next (.ofNat (v / 64 % 32 + 0xc0)) (.ofNat (v % 64 + 0x80) :: rest) =
      ⟨some (Char.ofNat v), rest⟩ := by
  have ha := toNat_ofNat_of_lt (v := v / 64 % 32 + 0xc0) (by omega)
  have hb := toNat_ofNat_of_lt (v := v % 64 + 0x80) (by omega)
  obtain ⟨low, high, hr, hlow, hhigh⟩ := exists_secondRange (a := v / 64 % 32 + 0xc0)
    (b := v % 64 + 0x80) (by omega) (by omega) (by omega) (by omega) (by omega) (by omega)
    (by omega) (by omega)
  have hv : (v / 64 % 32 + 0xc0 - 0xc0) * 64 + (v % 64 + 0x80 - 0x80) = v := by omega
  simp only [next, ha, hb, hr]
  rw [if_neg (by omega), if_neg (by omega), if_pos (by omega), hv]

theorem next_three (h : 0x7ff < v) (h' : v ≤ 0xffff) (hs : v < 0xd800 ∨ 0xdfff < v) :
    next (.ofNat (v / 4096 % 16 + 0xe0))
        (.ofNat (v / 64 % 64 + 0x80) :: .ofNat (v % 64 + 0x80) :: rest) =
      ⟨some (Char.ofNat v), rest⟩ := by
  have ha := toNat_ofNat_of_lt (v := v / 4096 % 16 + 0xe0) (by omega)
  have hb := toNat_ofNat_of_lt (v := v / 64 % 64 + 0x80) (by omega)
  have hc := toNat_ofNat_of_lt (v := v % 64 + 0x80) (by omega)
  obtain ⟨low, high, hr, hlow, hhigh⟩ := exists_secondRange (a := v / 4096 % 16 + 0xe0)
    (b := v / 64 % 64 + 0x80) (by omega) (by omega) (by omega) (by omega) (by omega) (by omega)
    (by omega) (by omega)
  have htail : isTail (v % 64 + 0x80) = true := isTail_of_le (by omega) (by omega)
  have hv : (v / 4096 % 16 + 0xe0 - 0xe0) * 4096 + (v / 64 % 64 + 0x80 - 0x80) * 64 +
      (v % 64 + 0x80 - 0x80) = v := by omega
  simp only [next, ha, hb, hc, hr, htail]
  rw [if_neg (by omega), if_neg (by omega), if_neg (by omega), if_neg (by simp),
    if_pos (by omega), hv]

theorem next_four (h : 0xffff < v) (h' : v ≤ 0x10ffff) :
    next (.ofNat (v / 262144 % 8 + 0xf0)) (.ofNat (v / 4096 % 64 + 0x80) ::
        .ofNat (v / 64 % 64 + 0x80) :: .ofNat (v % 64 + 0x80) :: rest) =
      ⟨some (Char.ofNat v), rest⟩ := by
  have ha := toNat_ofNat_of_lt (v := v / 262144 % 8 + 0xf0) (by omega)
  have hb := toNat_ofNat_of_lt (v := v / 4096 % 64 + 0x80) (by omega)
  have hc := toNat_ofNat_of_lt (v := v / 64 % 64 + 0x80) (by omega)
  have hd := toNat_ofNat_of_lt (v := v % 64 + 0x80) (by omega)
  obtain ⟨low, high, hr, hlow, hhigh⟩ := exists_secondRange (a := v / 262144 % 8 + 0xf0)
    (b := v / 4096 % 64 + 0x80) (by omega) (by omega) (by omega) (by omega) (by omega) (by omega)
    (by omega) (by omega)
  have htail : isTail (v / 64 % 64 + 0x80) = true := isTail_of_le (by omega) (by omega)
  have htail' : isTail (v % 64 + 0x80) = true := isTail_of_le (by omega) (by omega)
  have hv : (v / 262144 % 8 + 0xf0 - 0xf0) * 262144 + (v / 4096 % 64 + 0x80 - 0x80) * 4096 +
      (v / 64 % 64 + 0x80 - 0x80) * 64 + (v % 64 + 0x80 - 0x80) = v := by omega
  simp only [next, ha, hb, hc, hd, hr, htail, htail']
  rw [if_neg (by omega), if_neg (by omega), if_neg (by omega), if_neg (by simp),
    if_neg (by omega), if_neg (by simp), hv]

end

/-- A character is read back from the front of its bytes. -/
theorem next_encodeChar (c : Char) (rest : List UInt8) :
    ∃ lead tail, String.utf8EncodeChar c = lead :: tail ∧
      next lead (tail ++ rest) = ⟨some c, rest⟩ := by
  have hvalid : c.val.toNat < 0xd800 ∨ 0xdfff < c.val.toNat ∧ c.val.toNat < 0x110000 := c.valid
  have hc : Char.ofNat c.val.toNat = c := Char.ofNat_toNat c
  unfold String.utf8EncodeChar
  simp only
  split_ifs with h1 h2 h3
  · exact ⟨_, _, rfl, by rw [List.nil_append, next_one h1, hc]⟩
  · exact ⟨_, _, rfl, by
      rw [List.cons_append, List.nil_append, next_two (by omega) h2, hc]⟩
  · exact ⟨_, _, rfl, by
      rw [List.cons_append, List.cons_append, List.nil_append,
        next_three (by omega) h3 (by omega), hc]⟩
  · exact ⟨_, _, rfl, by
      rw [List.cons_append, List.cons_append, List.cons_append, List.nil_append,
        next_four (by omega) (by omega), hc]⟩

/-- A byte below 0x80 is the whole of a character and no part of another one. -/
theorem toNat_eq_of_mem_encodeChar {c : Char} {b : UInt8} (hb : b ∈ String.utf8EncodeChar c)
    (hlt : b.toNat < 0x80) : c.toNat = b.toNat := by
  change c.val.toNat = _
  unfold String.utf8EncodeChar at hb
  simp only at hb
  split_ifs at hb with h1 h2 h3
  · cases List.mem_singleton.1 hb
    exact (toNat_ofNat_of_lt (by omega)).symm
  -- the bytes of a longer form all have their top bit set
  all_goals
    simp only [List.mem_cons, List.not_mem_nil, or_false] at hb
    rcases hb with rfl | rfl | rfl | rfl
    all_goals
      rw [toNat_ofNat_of_lt (by omega)] at hlt
      omega

/-! ### Texts -/

theorem encode_append (cs ds : List Char) : encode (cs ++ ds) = encode cs ++ encode ds :=
  List.flatMap_append

theorem encode_cons (c : Char) (cs : List Char) :
    encode (c :: cs) = String.utf8EncodeChar c ++ encode cs :=
  List.flatMap_cons

theorem encode_eq_nil_iff {cs : List Char} : encode cs = [] ↔ cs = [] := by
  cases cs with
  | nil => simp [encode]
  | cons c cs =>
    obtain ⟨lead, tail, hc, -⟩ := next_encodeChar c []
    simp [encode_cons, hc]

/-- A character below 0x80 is in a text if its byte is among the bytes of the text. -/
theorem mem_of_mem_encode {cs : List Char} {b : UInt8} (h : b ∈ encode cs) (hlt : b.toNat < 0x80) :
    Char.ofNat b.toNat ∈ cs := by
  obtain ⟨c, hc, hb⟩ := List.mem_flatMap.1 h
  rw [← toNat_eq_of_mem_encodeChar hb hlt, Char.ofNat_toNat]
  exact hc

theorem decodeFrom?_encode (read cs : List Char) :
    decodeFrom? read (encode cs) = some (read.reverse ++ cs) := by
  induction cs generalizing read with
  | nil => simp [encode, decodeFrom?]
  | cons c cs ih =>
    obtain ⟨lead, tail, hc, hn⟩ := next_encodeChar c (encode cs)
    rw [encode_cons, hc, List.cons_append, decodeFrom?, hn]
    simp only
    rw [ih, List.reverse_cons, List.append_assoc]
    rfl

/-- **A text is read back from its bytes.** -/
theorem decode?_encode (cs : List Char) : decode? (encode cs) = some cs :=
  decodeFrom?_encode [] cs

theorem decodeLossyFrom_encode (read cs : List Char) :
    decodeLossyFrom read (encode cs) = read.reverse ++ cs := by
  induction cs generalizing read with
  | nil => simp [encode, decodeLossyFrom]
  | cons c cs ih =>
    obtain ⟨lead, tail, hc, hn⟩ := next_encodeChar c (encode cs)
    rw [encode_cons, hc, List.cons_append, decodeLossyFrom, hn]
    simp only [Option.getD_some]
    rw [ih, List.reverse_cons, List.append_assoc]
    rfl

/-- Nothing is replaced in the bytes of a text. -/
theorem decodeLossy_encode (cs : List Char) : decodeLossy (encode cs) = cs :=
  decodeLossyFrom_encode [] cs

end Utf8

end TapeMachine
