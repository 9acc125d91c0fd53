import FrameBasic.Decimal.Binary64
import FrameBasic.Decimal.Whole

/-!
# Reading numbers with a fraction

A numeral is an optional sign and then a name of a special number in any case, or digits with an
optional point and an optional exponent.  At least one digit stands before or after the point.

## Main definitions

* `Decimal.RealFault` — why a text is no numeral, with its wording `message`.
* `Decimal.readReal` — the number nearest to the written one.
-/

namespace FrameBasic.Decimal

/-- Why a text is no numeral with a fraction. -/
inductive RealFault where
  /-- There is no text. -/
  | empty
  /-- The text has another form. -/
  | malformed
deriving DecidableEq, Repr, Inhabited

/-- The wording of a fault. -/
def RealFault.message : RealFault → String
  | .empty => "cannot parse float from empty string"
  | .malformed => "invalid float literal"

/-- The value of decimal digits, without a bound. -/
def digitsValue (digits : List Char) : Nat :=
  digits.foldl (fun value c => value * 10 + (c.toNat - '0'.toNat)) 0

/-- The signed value of an exponent's text after its letter. -/
def readExponent (cs : List Char) : Option Int :=
  match cs with
  | '-' :: digits => (unsigned digits).map fun n => -(n : Int)
  | '+' :: digits => (unsigned digits).map Int.ofNat
  | digits => (unsigned digits).map Int.ofNat
where
  /-- The value of at least one digit. -/
  unsigned (digits : List Char) : Option Nat :=
    if digits ≠ [] ∧ digits.all Char.isDigit then some (digitsValue digits) else none

/-- The exponent at the end of a numeral: none is written, or a letter and its value. -/
def readScale (cs : List Char) : Option Int :=
  match cs with
  | [] => some 0
  | c :: rest => if c = 'e' ∨ c = 'E' then readExponent rest else none

/-- Digits with an optional point and exponent. -/
def readPlain (negative : Bool) (cs : List Char) : Option Binary64 :=
  let whole := cs.takeWhile Char.isDigit
  let rest := cs.dropWhile Char.isDigit
  let part :=
    match rest with
    | '.' :: after => (after.takeWhile Char.isDigit, after.dropWhile Char.isDigit)
    | _ => ([], rest)
  if whole = [] ∧ part.1 = [] then none
  else
    (readScale part.2).map fun scale =>
      Binary64.ofDecimal negative (digitsValue (whole ++ part.1)) (scale - part.1.length)

/-- A numeral after its sign: the name of a special number, or digits. -/
def readMagnitude (negative : Bool) (cs : List Char) : Option Binary64 :=
  let name := cs.map Char.toLower
  if name = ['n', 'a', 'n'] then some .nan
  else if name = ['i', 'n', 'f'] ∨ name = ['i', 'n', 'f', 'i', 'n', 'i', 't', 'y'] then
    some (.infinite negative)
  else readPlain negative cs

/-- The number nearest to the written one. -/
def readReal (cs : List Char) : Except RealFault Binary64 :=
  let result :=
    match cs with
    | '-' :: rest => readMagnitude true rest
    | '+' :: rest => readMagnitude false rest
    | rest => readMagnitude false rest
  if cs = [] then .error .empty
  else
    match result with
    | some number => .ok number
    | none => .error .malformed

end FrameBasic.Decimal
