import FrameBasic.Decimal.Binary64

/-!
# Shortest decimals

The shortest decimal of a number has the fewest digits among those that read back as the number.
With `n` digits the candidates are the two points around the value on the grid of its `n`-digit
decimals; the first `n` with a candidate inside the value's rounding interval wins.  Of two
candidates the nearer is taken, and on a tie the greater.

## Main definitions

* `Decimal.Figure` — the value `digits · 10 ^ exponent`.
* `Decimal.shortest` — the shortest decimal of `significand · 2 ^ exponent`.
-/

namespace FrameBasic.Decimal

/-- The decimal `digits · 10 ^ exponent`. -/
structure Figure where
  /-- The written digits as a number. -/
  digits : Nat
  /-- The power of ten that scales them. -/
  exponent : Int
deriving DecidableEq, Repr, Inhabited

/-- The same value without zeros at the end of its digits. -/
def Figure.trim (figure : Figure) : Figure :=
  go figure.digits figure.digits figure.exponent
where
  /-- At most `fuel` zeros are dropped. -/
  go : Nat → Nat → Int → Figure
    | 0, digits, exponent => ⟨digits, exponent⟩
    | fuel + 1, digits, exponent =>
      if digits ≠ 0 ∧ digits % 10 = 0 then go fuel (digits / 10) (exponent + 1)
      else ⟨digits, exponent⟩

/-- Every positive number of 64 bits exceeds `10 ^ (- gridDepth)` by at least sixteen decimal
places. -/
def gridDepth : Nat := 340

/-- The rounding interval of a positive number, its value and its ends in one integer unit. -/
structure Interval where
  /-- The lower end. -/
  low : Nat
  /-- The number itself. -/
  value : Nat
  /-- The upper end. -/
  high : Nat
  /-- How many units make `10 ^ (- gridDepth)`. -/
  unit : Nat
  /-- Whether the ends belong to the interval. -/
  closed : Bool
deriving DecidableEq, Repr

/-- The interval of the reals that round to `m · 2 ^ q`.  Below a power of two the neighbour is
only half as far away. -/
def Interval.of (m : Nat) (q : Int) : Interval :=
  let down := if m = Nat.pow 2 52 ∧ Binary64.minExponent < q then 1 else 2
  let scale := Nat.pow 2 (q - 2).toNat * Nat.pow 10 gridDepth
  let unit := Nat.pow 2 (2 - q).toNat
  ⟨(4 * m - down) * scale, 4 * m * scale, (4 * m + 2) * scale, unit, m % 2 == 0⟩

/-- Whether a point given in the interval's unit lies inside. -/
def Interval.contains (i : Interval) (point : Nat) : Bool :=
  if i.closed then i.low ≤ point && point ≤ i.high else i.low < point && point < i.high

/-- The candidate on the grid of step `10 ^ place` units of `10 ^ (- gridDepth)`, if one is
inside. -/
def Interval.candidate (i : Interval) (place : Nat) : Option Nat :=
  let step := Nat.pow 10 place * i.unit
  let below := i.value / step
  match i.contains (below * step), i.contains ((below + 1) * step) with
  | true, true => some (if 2 * i.value < (2 * below + 1) * step then below else below + 1)
  | true, false => some below
  | false, true => some (below + 1)
  | false, false => none

/-- The first candidate on ever finer grids, from the place `top` downwards. -/
def Interval.search (i : Interval) : Nat → Figure
  | 0 => ⟨i.value / i.unit, -gridDepth⟩
  | place + 1 =>
    match i.candidate place with
    | some digits => ⟨digits, (place : Int) - gridDepth⟩
    | none => i.search place

/-- The shortest decimal of the positive number `m · 2 ^ q`. -/
def shortest (m : Nat) (q : Int) : Figure :=
  let i := Interval.of m q
  (i.search (Nat.toDigits 10 (i.value / i.unit)).length).trim

end FrameBasic.Decimal
