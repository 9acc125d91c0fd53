import FrameBasic.Text.Letters

/-!
# Reading whole numbers

A numeral is an optional sign and digits.  The digits are taken from left to right, and the first
thing that goes wrong decides: a character that is no digit, or a value that leaves the range.

## Main definitions

* `Decimal.WholeFault` — why a text is no numeral of the range, with its wording `message`.
* `Decimal.readDigits` — digits of a base, up to a bound.
* `Decimal.readWord` — an unsigned numeral of 64 bits; a plus sign is allowed.
* `Decimal.readInteger` — a signed numeral of 64 bits.
* `Decimal.negateWord` — negation of a signed number of 64 bits, which wraps at the lower end.
-/

namespace FrameBasic.Decimal

/-- Why a text is no numeral of the range. -/
inductive WholeFault where
  /-- There is no text. -/
  | empty
  /-- A character is no digit, or there is nothing after the sign. -/
  | badDigit
  /-- The value is above the range. -/
  | tooLarge
  /-- The value is below the range. -/
  | tooSmall
deriving DecidableEq, Repr, Inhabited

/-- The wording of a fault. -/
def WholeFault.message : WholeFault → String
  | .empty => "cannot parse integer from empty string"
  | .badDigit => "invalid digit found in string"
  | .tooLarge => "number too large to fit in target type"
  | .tooSmall => "number too small to fit in target type"

/-- The value of `digits` in `base`, continuing from `value`.  A step beyond `bound` ends with the
fault `beyond`. -/
def readDigits (base bound : Nat) (beyond : WholeFault) :
    List Char → Nat → Except WholeFault Nat
  | [], value => .ok value
  | c :: rest, value =>
    match (Text.hexValue? c).filter (· < base) with
    | none => .error .badDigit
    | some digit =>
      let next := value * base + digit
      if next ≤ bound then readDigits base bound beyond rest next else .error beyond

/-- The value of at least one digit in `base`. -/
def readNumeral (base bound : Nat) (beyond : WholeFault) (digits : List Char) :
    Except WholeFault Nat :=
  if digits = [] then .error .badDigit else readDigits base bound beyond digits 0

/-- The greatest unsigned number of 64 bits. -/
def maxWord : Nat := Nat.pow 2 64 - 1

/-- The greatest signed number of 64 bits. -/
def maxInteger : Nat := Nat.pow 2 63 - 1

/-- An unsigned numeral of 64 bits in `base`. -/
def readWord (base : Nat) (cs : List Char) : Except WholeFault Nat :=
  match cs with
  | [] => .error .empty
  | '+' :: digits => readNumeral base maxWord .tooLarge digits
  | digits => readNumeral base maxWord .tooLarge digits

/-- A signed decimal numeral of 64 bits. -/
def readInteger (cs : List Char) : Except WholeFault Int :=
  match cs with
  | [] => .error .empty
  | '-' :: digits => (readNumeral 10 (maxInteger + 1) .tooSmall digits).map fun n => -(n : Int)
  | '+' :: digits => (readNumeral 10 maxInteger .tooLarge digits).map Int.ofNat
  | digits => (readNumeral 10 maxInteger .tooLarge digits).map Int.ofNat

/-- A value as a signed number of 64 bits. -/
def wrapInteger (value : Int) : Int :=
  value.bmod (Nat.pow 2 64)

/-- Negation of a signed number of 64 bits: the least one is its own negation. -/
def negateWord (value : Int) : Int :=
  wrapInteger (-value)

/-- The written digits of a 32-bit pattern: from `2 ^ 31` on they stand for a negative number. -/
def signedPattern (value : Nat) : Option Int :=
  if value < Nat.pow 2 32 then some ((value : Int).bmod (Nat.pow 2 32)) else none

end FrameBasic.Decimal
