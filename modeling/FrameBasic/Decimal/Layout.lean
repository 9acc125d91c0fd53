import FrameBasic.Decimal.Shortest

/-!
# Written numbers

A number is written with its shortest digits, either positionally or with an exponent.  Two styles
are in use: the script never shows an exponent, and a listing shows one for very small and very
large magnitudes.

## Main definitions

* `Decimal.positional`, `Decimal.scientific` — the two notations of a decimal.
* `Decimal.Style` — the decisions of a style.
* `Decimal.write` — a number in a style.
* `Decimal.scriptStyle`, `Decimal.listingStyle` — the two styles.
-/

namespace FrameBasic.Decimal

/-- The digits of a number as text. -/
def digitText (n : Nat) : List Char :=
  Nat.toDigits 10 n

/-- The power of ten of the first digit. -/
def Figure.order (figure : Figure) : Int :=
  figure.exponent + ((digitText figure.digits).length : Int) - 1

/-- Positional notation.  `pointed` keeps a point and a zero after a whole number. -/
def positional (pointed : Bool) (figure : Figure) : List Char :=
  let digits := digitText figure.digits
  if 0 ≤ figure.exponent then
    digits ++ List.replicate figure.exponent.toNat '0' ++ (if pointed then ['.', '0'] else [])
  else
    let places := (-figure.exponent).toNat
    if places < digits.length then
      digits.take (digits.length - places) ++ '.' :: digits.drop (digits.length - places)
    else '0' :: '.' :: List.replicate (places - digits.length) '0' ++ digits

/-- The text of a signed number. -/
def signedText (n : Int) : List Char :=
  if n < 0 then '-' :: digitText n.natAbs else digitText n.natAbs

/-- Notation with an exponent: one digit before the point. -/
def scientific (figure : Figure) : List Char :=
  match digitText figure.digits with
  | [] => []
  | [digit] => digit :: 'e' :: signedText figure.order
  | digit :: others => digit :: '.' :: others ++ 'e' :: signedText figure.order

/-- The decisions of a style. -/
structure Style where
  /-- The least order written positionally. -/
  least : Int
  /-- The least order above it that is written with an exponent again. -/
  most : Int
  /-- Whole numbers below this order keep a point and a zero. -/
  pointedBelow : Int
  /-- The text of what is no number. -/
  nan : String
  /-- The text of a positive infinity. -/
  infinity : String
  /-- The text of a negative infinity. -/
  negativeInfinity : String

/-- The text of a finite magnitude. -/
def writeMagnitude (style : Style) (significand : Nat) (exponent : Int) : List Char :=
  if significand = 0 then positional (decide (0 < style.pointedBelow)) ⟨0, 0⟩
  else
    let figure := shortest significand exponent
    if style.least ≤ figure.order ∧ figure.order < style.most then
      positional (decide (figure.order < style.pointedBelow)) figure
    else scientific figure

/-- The text of a number. -/
def write (style : Style) : Binary64 → String
  | .nan => style.nan
  | .infinite negative => if negative then style.negativeInfinity else style.infinity
  | .finite negative significand exponent =>
    let magnitude := writeMagnitude style significand exponent
    String.ofList (if negative then '-' :: magnitude else magnitude)

/-- The script's style: no exponent, a point after whole numbers below `10 ^ 15`, and zero for what
is not finite. -/
def scriptStyle : Style :=
  ⟨-400, 400, 15, "0", "0", "0"⟩

/-- The style of listings: an exponent below `10 ^ (-4)` and from `10 ^ 16` on. -/
def listingStyle : Style :=
  ⟨-4, 16, 16, "NaN", "inf", "-inf"⟩

end FrameBasic.Decimal
