import AddonIndex.Number.Binary64
import AddonIndex.Text.Basic

/-!
# The shortest decimal that reads back

A finite number is written with the fewest decimal digits that still lie closer
to it than to any other number. Of two such decimals the nearer one is taken,
and of two equally near ones the larger.

The reals that round to a number form an interval, whose ends belong to it if
the mantissa is even. For one, two, and more digits the two neighbours of the
number on the grid of decimals with that many digits are tested, in exact
integer arithmetic; the first grid with a hit decides.
-/

namespace AddonIndex

/-- The decimal `digits · 10 ^ exponent`. -/
structure Decimal where
  digits : Nat
  exponent : Int
deriving DecidableEq, Repr, Inhabited

namespace Binary64

/-- The interval of a finite number, in units of `2 ^ (-1076)`: its lower end,
the number, its upper end. The step below a power of two is half as wide. -/
structure Interval where
  low : Nat
  value : Nat
  high : Nat
  closed : Bool

/-- The reals that round to a finite number other than zero. -/
def interval (x : Binary64) : Interval :=
  let unit := Nat.pow 2 x.scale
  let narrow := x.mantissa = Nat.pow 2 52 ∧ 0 < x.scale
  { low := (4 * x.mantissa - if narrow then 1 else 2) * unit
    value := 4 * x.mantissa * unit
    high := (4 * x.mantissa + 2) * unit
    closed := x.mantissa % 2 == 0 }

/-- The denominator of the units of `Interval`. -/
def unitsPerOne : Nat := Nat.pow 2 1076

/-- The number of digits before the point of `value / unitsPerOne`; for a
number below one, minus the number of zeros right after the point. -/
def decimalMagnitude (value : Nat) : Int :=
  if unitsPerOne ≤ value then (Nat.toDigits 10 (value / unitsPerOne)).length
  else
    match (List.range 330).find? fun zeros => unitsPerOne ≤ value * Nat.pow 10 (zeros + 1) with
    | some zeros => -zeros
    | none => -330

/-- The neighbours on the grid of decimals with `count` digits that lie in the
interval, the nearer one if both do. -/
def onGrid? (range : Interval) (size : Int) (count : Nat) : Option Decimal :=
  let exponent : Int := size - count
  -- A grid point `d` is `d · step / finer` of the interval's units.
  let finer := Nat.pow 10 (-exponent).toNat
  let step := unitsPerOne * Nat.pow 10 exponent.toNat
  let value := range.value * finer
  let below := value / step
  let above := below + 1
  let inside (point : Nat) : Bool :=
    if range.closed then
      range.low * finer ≤ point * step ∧ point * step ≤ range.high * finer
    else
      range.low * finer < point * step ∧ point * step < range.high * finer
  match inside below, inside above with
  | true, true =>
      if value - below * step < above * step - value then some ⟨below, exponent⟩
      else some ⟨above, exponent⟩
  | true, false => some ⟨below, exponent⟩
  | false, true => some ⟨above, exponent⟩
  | false, false => none

/-- The shortest decimal that reads back as the magnitude of a finite number. -/
def shortest (x : Binary64) : Decimal :=
  if x.isZero then ⟨0, 0⟩
  else
    let range := x.interval
    let size := decimalMagnitude range.value
    match (List.range' 1 17).findSome? (onGrid? range size) with
    | some decimal => decimal
    | none => ⟨0, 0⟩

end Binary64

namespace Decimal

/-- The digits without trailing zeros, and the number of digits that stand
before the point; both are empty or zero for the decimal zero. -/
def parts (x : Decimal) : Text × Int :=
  if x.digits = 0 then (['0'], 1)
  else
    let written := Nat.toDigits 10 x.digits
    (Text.dropEndWhile (· == '0') written, written.length + x.exponent)

/-- Positional notation: no exponent, and a point only before a digit. With
`wholePoint` a whole number is followed by `.0`. -/
def positional (wholePoint : Bool) (x : Decimal) : Text :=
  let (digits, size) := x.parts
  let ending : Text := if wholePoint then ['.', '0'] else []
  if size ≤ 0 then ['0', '.'] ++ List.replicate (-size).toNat '0' ++ digits
  else if (digits.length : Int) ≤ size then
    digits ++ List.replicate (size.toNat - digits.length) '0' ++ ending
  else digits.take size.toNat ++ ['.'] ++ digits.drop size.toNat

/-- One digit before the point, and the exponent after `e`. -/
def scientific (x : Decimal) : Text :=
  let (digits, size) := x.parts
  let mantissa :=
    match digits with
    | first :: second :: rest => first :: '.' :: second :: rest
    | short => short
  mantissa ++ ['e'] ++ Text.ofInt (size - 1)

end Decimal

namespace Binary64

/-- Put the sign before the text of the magnitude, and name what is no finite
number. -/
def signed (x : Binary64) (magnitude : Text) : Text :=
  if x.isFinite then (if x.isNegative then ['-'] else []) ++ magnitude
  else if x.isInfinite then (if x.isNegative then "-inf" else "inf")
  else "NaN"

/-- The plain form: always positional, whole numbers without a point. -/
def plain (x : Binary64) : Text :=
  x.signed (x.shortest.positional false)

/-- The form in messages: whole numbers end in `.0`, and magnitudes from `1e16`
or below `1e-4` have an exponent. -/
def debug (x : Binary64) : Text :=
  let decimal := x.shortest
  let size := decimal.parts.2
  if !x.isZero ∧ (16 < size ∨ size < -3) then x.signed decimal.scientific
  else x.signed (decimal.positional true)

end Binary64

end AddonIndex
