/-!
# Letters and digits

The language is written in ASCII letters and takes no notice of their case.  Every other character
is left as it is, so folding a text twice changes nothing.

## Main definitions

* `Text.lower s` — the text with its ASCII capitals replaced by small letters.
* `Text.sameLetters a b` — equality up to the case of ASCII letters.
* `Text.isWordStart`, `Text.isWordPart` — the characters that begin and continue a word.
* `Text.hexValue?` — the value of a hexadecimal digit.
-/

namespace FrameBasic.Text

/-- The text with the letters `A` to `Z` replaced by `a` to `z`. -/
def lower (s : String) : String :=
  String.ofList (s.toList.map Char.toLower)

/-- Equality of two texts up to the case of ASCII letters. -/
def sameLetters (a b : String) : Bool :=
  lower a == lower b

/-- A character that may begin a word: an ASCII letter or an underscore. -/
def isWordStart (c : Char) : Bool :=
  c.isAlpha || c == '_'

/-- A character that may continue a word: an ASCII letter or digit, or an underscore. -/
def isWordPart (c : Char) : Bool :=
  c.isAlphanum || c == '_'

/-- The value of a hexadecimal digit of either case. -/
def hexValue? (c : Char) : Option Nat :=
  if c.isDigit then some (c.toNat - '0'.toNat)
  else if 'a' ≤ c ∧ c ≤ 'f' then some (c.toNat - 'a'.toNat + 10)
  else if 'A' ≤ c ∧ c ≤ 'F' then some (c.toNat - 'A'.toNat + 10)
  else none

/-- A hexadecimal digit of either case. -/
def isHexDigit (c : Char) : Bool :=
  (hexValue? c).isSome

/-- The small hexadecimal digits of a number, without leading zeros. -/
def hexDigits (n : Nat) : List Char :=
  Nat.toDigits 16 n

/-- The digits padded on the left with zeros to at least `width` characters. -/
def padZeros (width : Nat) (digits : List Char) : List Char :=
  List.replicate (width - digits.length) '0' ++ digits

@[simp] theorem toList_lower (s : String) : (lower s).toList = s.toList.map Char.toLower := by
  simp [lower]

end FrameBasic.Text

namespace FrameBasic

/-- A character stays as it is, or is a capital and becomes a small letter. -/
theorem toLower_cases (c : Char) :
    c.toLower = c ∨ (65 ≤ c.toNat ∧ c.toNat ≤ 90 ∧ c.toLower.toNat = c.toNat + 32) := by
  unfold Char.toLower
  split
  · next hcapital =>
    have hshift : ('a'.val - 'A'.val).toNat = 32 := by decide
    have hfirst : 65 ≤ c.val.toNat := UInt32.le_iff_toNat_le.mp hcapital.1
    have hlast : c.val.toNat ≤ 90 := UInt32.le_iff_toNat_le.mp hcapital.2
    refine .inr ⟨hfirst, hlast, ?_⟩
    show (c.val + ('a'.val - 'A'.val)).toNat = c.val.toNat + 32
    rw [UInt32.toNat_add, hshift]
    omega
  · exact .inl rfl

theorem toLower_toLower (c : Char) : c.toLower.toLower = c.toLower := by
  rcases toLower_cases c with h | ⟨hfirst, -, hsmall⟩
  · rw [h, h]
  · rcases toLower_cases c.toLower with h | ⟨-, hlast, -⟩
    · exact h
    · omega

/-- What stands before the small letters comes from nothing else. -/
theorem eq_of_toLower_eq {c d : Char} (hd : d.toNat < 97) (h : c.toLower = d) : c = d := by
  rcases toLower_cases c with hsame | ⟨hfirst, -, hsmall⟩
  · exact hsame.symm.trans h
  · rw [h] at hsmall
    omega

end FrameBasic
