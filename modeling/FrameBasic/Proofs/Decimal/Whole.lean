import FrameBasic.Tree.Parser.Expression
import Mathlib.Data.Int.ModEq
import Mathlib.Data.Nat.Digits.Defs

/-!
# The values of whole numerals

Digits are read exactly, however many of them are zeros in front, as long as the value stays within
its bound.  A hexadecimal numeral is a pattern of 32 bits: it has a value exactly if it fits into
them, and the value is the signed number with that pattern.

## Main definitions

* `Decimal.Digits` — characters are digits of a base, in either case, with their values.
* `Decimal.Denotes` — what the lexeme of a numeral stands for.

## Main results

* `Decimal.readDigits_eq` — the value of digits, or the fault that it is beyond the bound.
* `Decimal.readInteger_eq_ok_iff`, `Decimal.readHex_eq_some_iff` — a numeral is read as what it stands
  for.
* `Parser.readHex_pattern` — **a hexadecimal numeral is a signed number of 32 bits**.
-/

namespace FrameBasic

namespace Decimal

variable {base bound value : Nat} {beyond : WholeFault} {digits : List Char} {values : List Nat}

/-- The characters are digits of the base with the values; letters are large or small. -/
def Digits (base : Nat) : List Char → List Nat → Prop :=
  List.Forall₂ fun c n => n < base ∧ (c = n.digitChar ∨ c = n.digitChar.toUpper)

theorem hexValue?_digitChar : ∀ n < 16,
    Text.hexValue? n.digitChar = some n ∧ Text.hexValue? n.digitChar.toUpper = some n := by
  decide

theorem hexValue?_of_digit {c : Char} {n : Nat} (hbase : base ≤ 16)
    (h : n < base ∧ (c = n.digitChar ∨ c = n.digitChar.toUpper)) :
    Text.hexValue? c = some n := by
  obtain ⟨hn, rfl | rfl⟩ := h
  · exact (hexValue?_digitChar n (Nat.lt_of_lt_of_le hn hbase)).1
  · exact (hexValue?_digitChar n (Nat.lt_of_lt_of_le hn hbase)).2

/-- A character with a value is the digit of the value, and there are sixteen of them. -/
theorem digit_of_hexValue? {c : Char} {n : Nat} (h : Text.hexValue? c = some n) :
    n < 16 ∧ (c = n.digitChar ∨ c = n.digitChar.toUpper) := by
  have hsmall : c.toNat < 103 := by
    unfold Text.hexValue? at h
    split at h
    · next hc => exact Nat.lt_of_le_of_lt (Char.isDigit_iff_toNat.mp hc).2 (by decide)
    · split at h
      · next hc => exact Nat.lt_succ_of_le hc.2
      · split at h
        · next hc => exact Nat.lt_of_le_of_lt (show c.toNat ≤ 70 from hc.2) (by decide)
        · cases h
  have hall : ∀ k < 103, (Text.hexValue? (Char.ofNat k)).all (fun n =>
      n < 16 ∧ (Char.ofNat k = n.digitChar ∨ Char.ofNat k = n.digitChar.toUpper)) = true := by
    decide
  have hc := hall c.toNat hsmall
  rw [Char.ofNat_toNat, h] at hc
  simpa using hc

/-- Characters that have values below the base are digits. -/
theorem exists_digits (base : Nat) (h : ∀ c ∈ digits, ∃ n < base, Text.hexValue? c = some n) :
    ∃ values, Digits base digits values := by
  induction digits with
  | nil => exact ⟨[], .nil⟩
  | cons c rest ih =>
    obtain ⟨⟨n, hn, hvalue⟩, hrest⟩ := List.forall_mem_cons.mp h
    obtain ⟨values, hvalues⟩ := ih hrest
    exact ⟨n :: values, .cons ⟨hn, (digit_of_hexValue? hvalue).2⟩ hvalues⟩

/-- What has no value does not stand before digits. -/
theorem Digits.ne_cons (h : Digits base digits values) (hbase : base ≤ 16) {c : Char}
    (hc : Text.hexValue? c = none) (rest : List Char) : digits ≠ c :: rest := by
  rintro rfl
  cases h with
  | cons hdigit _ =>
    rw [hexValue?_of_digit hbase hdigit] at hc
    cases hc

/-- More digits do not make the value smaller. -/
theorem le_foldl_digits (hbase : 0 < base) (values : List Nat) : ∀ value,
    value ≤ values.foldl (fun value n => value * base + n) value := by
  induction values with
  | nil => exact Nat.le_refl
  | cons n values ih =>
    intro value
    have hstep : value ≤ value * base + n :=
      Nat.le_add_right_of_le (Nat.le_mul_of_pos_right value hbase)
    exact Nat.le_trans hstep (ih _)

theorem readDigits_foldl (hbase : base ≤ 16) (h : Digits base digits values) : ∀ value ≤ bound,
    readDigits base bound beyond digits value =
      if values.foldl (fun value n => value * base + n) value ≤ bound then
        .ok (values.foldl (fun value n => value * base + n) value)
      else .error beyond := by
  induction h with
  | nil => exact fun value hvalue => (if_pos hvalue).symm
  | @cons c n _ values hdigit _ ih =>
    intro value _
    have hfilter : (Text.hexValue? c).filter (· < base) = some n := by
      rw [hexValue?_of_digit hbase hdigit]
      simp [hdigit.1]
    unfold readDigits
    simp only [hfilter, List.foldl_cons]
    split
    · next hnext => exact ih _ hnext
    · next hnext =>
      -- the value was beyond the bound before the last digit
      have hle := le_foldl_digits (Nat.zero_lt_of_lt hdigit.1) values (value * base + n)
      exact (if_neg (by omega)).symm

/-- The value of digits, or the fault that it is beyond the bound. -/
theorem readDigits_eq (hbase : base ≤ 16) (h : Digits base digits values) :
    readDigits base bound beyond digits 0 =
      if Nat.ofDigits base values.reverse ≤ bound then .ok (Nat.ofDigits base values.reverse)
      else .error beyond := by
  have hvalue : Nat.ofDigits base values.reverse =
      values.foldl (fun value n => value * base + n) 0 := by
    rw [Nat.ofDigits_eq_foldr, List.foldr_reverse]
    simp only [Nat.cast_id, Nat.add_comm, Nat.mul_comm]
  rw [hvalue]
  exact readDigits_foldl hbase h 0 (Nat.zero_le bound)

theorem readWord_digits (hne : digits ≠ []) (h : Digits 16 digits values) :
    readWord 16 digits = readDigits 16 maxWord .tooLarge digits 0 := by
  unfold readWord
  split
  · exact absurd rfl hne
  · exact absurd rfl (h.ne_cons (Nat.le_refl 16) rfl _)
  · unfold readNumeral
    rw [if_neg hne]

/-- The value of decimal digits, if it is a signed number of 64 bits. -/
theorem readInteger_digits (hne : digits ≠ []) (h : Digits 10 digits values) :
    readInteger digits =
      if Nat.ofDigits 10 values.reverse ≤ maxInteger then .ok (Nat.ofDigits 10 values.reverse : Nat)
      else .error .tooLarge := by
  have hsign {c : Char} (hc : Text.hexValue? c = none) := h.ne_cons (by decide) hc
  unfold readInteger
  split
  · exact absurd rfl hne
  · exact absurd rfl (hsign rfl _)
  · exact absurd rfl (hsign rfl _)
  · unfold readNumeral
    rw [if_neg hne, readDigits_eq (by decide) h]
    split <;> rfl

/-- Only the least signed number of 64 bits has no negation. -/
theorem negateWord_eq {v : Int} (lower : -2 ^ 63 < v) (upper : v < 2 ^ 63) : negateWord v = -v := by
  have hpow : Nat.pow 2 64 = 18446744073709551616 := rfl
  unfold negateWord wrapInteger
  rw [hpow, Int.bmod_def]
  split <;> omega

/-- The signed number of 32 bits that has a pattern. -/
theorem signedPattern_eq_some_iff {r : Int} :
    signedPattern value = some r ↔
      value < 2 ^ 32 ∧ r ≡ value [ZMOD 2 ^ 32] ∧ -2 ^ 31 ≤ r ∧ r < 2 ^ 31 := by
  have hpow : Nat.pow 2 32 = 4294967296 := rfl
  unfold signedPattern Int.ModEq
  rw [hpow]
  split
  · next hlt =>
    rw [Option.some.injEq, Int.bmod_def]
    constructor
    · rintro rfl
      split <;> omega
    · rintro ⟨_, hmod, hlower, hupper⟩
      split <;> omega
  · next hlt => simp [hlt]

/-! ### What numerals stand for -/

/-- What the lexeme of a numeral stands for. -/
inductive Denotes : Kind → List Char → Int → Prop
  /-- Decimal digits stand for their value. -/
  | value {cs : List Char} {values : List Nat} (ne_nil : cs ≠ []) (digits : Digits 10 cs values) :
      Denotes .integer cs (Nat.ofDigits 10 values.reverse : Nat)
  /-- Behind a dollar sign, hexadecimal digits stand for the signed number of 32 bits that has the
  pattern. -/
  | pattern {cs : List Char} {values : List Nat} {v : Int} (ne_nil : cs ≠ [])
      (digits : Digits 16 cs values) (fits : Nat.ofDigits 16 values.reverse < 2 ^ 32)
      (same : v ≡ (Nat.ofDigits 16 values.reverse : Nat) [ZMOD 2 ^ 32])
      (range : -2 ^ 31 ≤ v ∧ v < 2 ^ 31) : Denotes .hex ('$' :: cs) v

section Denotes

variable {kind : Kind} {cs : List Char} {v : Int}

/-- Only two kinds of tokens are numerals. -/
theorem not_denotes (hinteger : kind ≠ .integer) (hhex : kind ≠ .hex) : ¬ Denotes kind cs v := by
  rintro (_ | _) <;> contradiction

theorem Denotes.nonneg (h : Denotes .integer cs v) : 0 ≤ v := by
  cases h
  exact Int.natCast_nonneg _

theorem Denotes.range (h : Denotes .hex cs v) : -2 ^ 31 ≤ v ∧ v < 2 ^ 31 := by
  cases h
  assumption

theorem Denotes.lower (h : Denotes kind cs v) : -2 ^ 31 ≤ v := by
  cases h with
  | value => omega
  | pattern _ _ _ _ range => exact range.1

/-- Decimal digits have a value if it is a signed number of 64 bits. -/
theorem readInteger_eq_ok_iff (hne : cs ≠ []) (h : ∀ c ∈ cs, c.isDigit = true) :
    readInteger cs = .ok v ↔ Denotes .integer cs v ∧ v < 2 ^ 63 := by
  have hmax : maxInteger = 9223372036854775807 := rfl
  constructor
  · intro hv
    obtain ⟨values, hvalues⟩ := exists_digits 10 fun c hc => by
      have hle : c.toNat ≤ 57 := (Char.isDigit_iff_toNat.mp (h c hc)).2
      exact ⟨c.toNat - 48, by omega, if_pos (h c hc)⟩
    rw [readInteger_digits hne hvalues] at hv
    split at hv
    · cases hv
      exact ⟨.value hne hvalues, by omega⟩
    · cases hv
  · rintro ⟨hv, hlt⟩
    cases hv with
    | value _ hvalues => rw [readInteger_digits hne hvalues, if_pos (by omega)]

/-- Hexadecimal digits have a value if they are a pattern of 32 bits. -/
theorem readHex_eq_some_iff (hne : digits ≠ []) (h : ∀ c ∈ digits, Text.isHexDigit c = true) :
    Parser.readHex (String.ofList ('$' :: digits)) = some v ↔ Denotes .hex ('$' :: digits) v := by
  have hmax : maxWord = 18446744073709551615 := rfl
  simp only [Parser.readHex, String.toList_ofList]
  constructor
  · intro hv
    obtain ⟨values, hvalues⟩ := exists_digits 16 fun c hc => by
      obtain ⟨n, hn⟩ := Option.isSome_iff_exists.mp (h c hc)
      exact ⟨n, (digit_of_hexValue? hn).1, hn⟩
    rw [readWord_digits hne hvalues, readDigits_eq (Nat.le_refl 16) hvalues] at hv
    split at hv
    · obtain ⟨hfits, hsame, hrange⟩ := signedPattern_eq_some_iff.mp hv
      exact .pattern hne hvalues hfits hsame hrange
    · cases hv
  · intro hv
    cases hv with
    | pattern _ hvalues hfits hsame hrange =>
      rw [readWord_digits hne hvalues, readDigits_eq (Nat.le_refl 16) hvalues, if_pos (by omega)]
      exact signedPattern_eq_some_iff.mpr ⟨hfits, hsame, hrange⟩

end Denotes

end Decimal

/-- A dollar sign and hexadecimal digits have no value exactly if they do not fit into 32 bits.
Otherwise they stand for the one signed number of 32 bits that has their value up to multiples of
`2 ^ 32`. -/
theorem Parser.readHex_pattern {digits : List Char} {values : List Nat} (hne : digits ≠ [])
    (h : Decimal.Digits 16 digits values) :
    let value : Nat := Nat.ofDigits 16 values.reverse
    let text := String.ofList ('$' :: digits)
    (readHex text = none ↔ 2 ^ 32 ≤ value) ∧
    ∀ r : Int, readHex text = some r ↔
      value < 2 ^ 32 ∧ r ≡ value [ZMOD 2 ^ 32] ∧ -2 ^ 31 ≤ r ∧ r < 2 ^ 31 := by
  intro value text
  -- more than 64 bits are more than 32, so that both bounds ask the same
  have hread : readHex text = Decimal.signedPattern value := by
    have hmax : Decimal.maxWord = 18446744073709551615 := rfl
    simp only [readHex, text, String.toList_ofList]
    rw [Decimal.readWord_digits hne h, Decimal.readDigits_eq (Nat.le_refl 16) h]
    split
    · rfl
    · next hlt =>
      have hlarge : ¬ value < Nat.pow 2 32 := by
        have hpow : Nat.pow 2 32 = 4294967296 := rfl
        omega
      exact (if_neg hlarge).symm
  rw [hread]
  refine ⟨?_, fun r => Decimal.signedPattern_eq_some_iff⟩
  unfold Decimal.signedPattern
  split
  · next hlt => simpa using hlt
  · next hlt => simpa using hlt

/-- `$00000000000000000080000000`: zeros in front do not count, and the first bit is the sign. -/
theorem Parser.readHex_pattern_least :
    let digits := "00000000000000000080000000".toList
    let values := List.replicate 18 0 ++ 8 :: List.replicate 7 0
    digits ≠ [] ∧ Decimal.Digits 16 digits values ∧
      readHex "$00000000000000000080000000" = some (-2 ^ 31) := by
  intro digits values
  have hne : digits ≠ [] := by decide
  have hdigits : Decimal.Digits 16 digits values := by
    unfold Decimal.Digits
    decide
  refine ⟨hne, hdigits, ((Parser.readHex_pattern hne hdigits).2 _).mpr ?_⟩
  decide

end FrameBasic
