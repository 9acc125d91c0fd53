/-!
# Binary numbers of 64 bits

A finite number is a sign and `significand · 2 ^ exponent` in exact integers, so that reading,
writing and comparing are computed without rounding of their own.  A number is in *normal form* when
its significand has 53 bits, or fewer at the least exponent; `ofRatio` gives that form.

Powers are written `Nat.pow`, so that the definitions do not hang on the instance of `^` in scope.

## Main definitions

* `Binary64` — a number, an infinity, or no number at all.
* `Binary64.ofRatio` — the number nearest to a fraction; a tie goes to the even significand.
* `Binary64.ofDecimal` — the number nearest to `digits · 10 ^ exponent`.
* `Binary64.isBelowZero`, `Binary64.neg`.
* `Binary64.toBits?` — the bit pattern of a number.
-/

namespace FrameBasic

/-- A binary number of 64 bits. -/
inductive Binary64 where
  /-- Not a number. -/
  | nan
  /-- One of the two infinities. -/
  | infinite (negative : Bool)
  /-- The number `± significand · 2 ^ exponent`. -/
  | finite (negative : Bool) (significand : Nat) (exponent : Int)
deriving DecidableEq, Repr, Inhabited

namespace Binary64

/-- The least exponent. -/
def minExponent : Int := -1074

/-- The greatest exponent of a finite number. -/
def maxExponent : Int := 971

/-- The quotient rounded to the nearest integer, a tie to the even one. -/
def roundQuotient (n d : Nat) : Nat :=
  let low := n / d
  let twice := 2 * (n % d)
  if twice < d then low
  else if d < twice then low + 1
  else if low % 2 = 0 then low else low + 1

/-- The fraction `n / d` divided by `2 ^ e`, as a fraction. -/
def scaleDown (n d : Nat) (e : Int) : Nat × Nat :=
  if 0 ≤ e then (n, d * Nat.pow 2 e.toNat) else (n * Nat.pow 2 (-e).toNat, d)

/-- The exponent of the highest bit of the positive fraction `n / d`. -/
def highBit (n d : Nat) : Int :=
  let guess : Int := (n.log2 : Int) - d.log2
  let scaled := scaleDown n d guess
  if scaled.2 ≤ scaled.1 then guess else guess - 1

/-- The number nearest to `± n / d`, a tie to the even significand. -/
def ofRatio (negative : Bool) (n d : Nat) : Binary64 :=
  if n = 0 then .finite negative 0 minExponent
  else
    let exponent := max (highBit n d - 52) minExponent
    let scaled := scaleDown n d exponent
    let significand := roundQuotient scaled.1 scaled.2
    -- rounding up may carry into a 54th bit
    let carried :=
      if significand = Nat.pow 2 53 then (Nat.pow 2 52, exponent + 1) else (significand, exponent)
    if maxExponent < carried.2 then .infinite negative
    else .finite negative carried.1 carried.2

/-- The number nearest to `± digits · 10 ^ exponent`.  Exponents far outside the range are cut off
first, which changes no result. -/
def ofDecimal (negative : Bool) (digits : Nat) (exponent : Int) : Binary64 :=
  if digits = 0 then .finite negative 0 minExponent
  else
    let magnitude : Int := exponent + (Nat.toDigits 10 digits).length
    if 400 < magnitude then .infinite negative
    else if magnitude < -400 then .finite negative 0 minExponent
    else if 0 ≤ exponent then ofRatio negative (digits * Nat.pow 10 exponent.toNat) 1
    else ofRatio negative digits (Nat.pow 10 (-exponent).toNat)

/-- Whether the number is less than zero. -/
def isBelowZero : Binary64 → Bool
  | .nan => false
  | .infinite negative => negative
  | .finite negative significand _ => negative && significand != 0

/-- The number with the other sign. -/
def neg : Binary64 → Binary64
  | .nan => .nan
  | .infinite negative => .infinite (!negative)
  | .finite negative significand exponent => .finite (!negative) significand exponent

/-- The bit pattern of a number in normal form. -/
def toBits? : Binary64 → Option Nat
  | .nan => none
  | .infinite negative => some (sign negative + 0x7FF * Nat.pow 2 52)
  | .finite negative significand exponent =>
    if significand < Nat.pow 2 52 then some (sign negative + significand)
    else
      let biased := (exponent - minExponent + 1).toNat
      some (sign negative + biased * Nat.pow 2 52 + (significand - Nat.pow 2 52))
where
  /-- The sign bit. -/
  sign (negative : Bool) : Nat := if negative then Nat.pow 2 63 else 0

end Binary64

end FrameBasic
