/-!
# Binary floating-point numbers

The numbers of 64-bit binary floating point, held as their bits, and rounding
of exact ratios to them. Everything is computed on natural numbers, so the
rounding can be reasoned about without any floating-point operation.

A finite number is `mantissa · 2 ^ exponent`. For all but the smallest numbers
the mantissa has 53 binary digits; the smallest ones share the exponent `-1074`
and have fewer.
-/

namespace AddonIndex

/-- A 64-bit binary floating-point number. -/
structure Binary64 where
  bits : UInt64
deriving DecidableEq, Repr, Inhabited

namespace Binary64

/-- The weight of the sign bit. -/
def signWeight : Nat := Nat.pow 2 63

/-- The bits of positive infinity; larger magnitudes are not numbers. -/
def infinityBits : Nat := 0x7FF0000000000000

/-- The number with the given sign and the given bits below the sign. -/
def ofMagnitude (negative : Bool) (magnitude : Nat) : Binary64 :=
  ⟨UInt64.ofNat (if negative then signWeight + magnitude else magnitude)⟩

/-- Whether the sign bit is set. -/
def isNegative (x : Binary64) : Bool := signWeight ≤ x.bits.toNat

/-- The bits below the sign. -/
def magnitude (x : Binary64) : Nat := x.bits.toNat % signWeight

/-- Neither infinite nor outside the numbers. -/
def isFinite (x : Binary64) : Bool := x.magnitude < infinityBits

/-- Positive or negative infinity. -/
def isInfinite (x : Binary64) : Bool := x.magnitude == infinityBits

/-- Positive or negative zero. -/
def isZero (x : Binary64) : Bool := x.magnitude == 0

def zero : Binary64 := ⟨0⟩

/-- The number with the opposite sign. -/
def negate (x : Binary64) : Binary64 := ofMagnitude (!x.isNegative) x.magnitude

/-- The natural factor of a finite number's magnitude. -/
def mantissa (x : Binary64) : Nat :=
  if x.magnitude / Nat.pow 2 52 = 0 then x.magnitude
  else Nat.pow 2 52 + x.magnitude % Nat.pow 2 52

/-- The exponent of the power of two in a finite number's magnitude, plus 1074. -/
def scale (x : Binary64) : Nat := x.magnitude / Nat.pow 2 52 - 1

/-- The natural number nearest to `num / den`; a half goes to the even neighbour. -/
def roundRatio (num den : Nat) : Nat :=
  let quotient := num / den
  let rest := num % den
  if 2 * rest < den then quotient
  else if den < 2 * rest then quotient + 1
  else quotient + quotient % 2

/-- The bits of the number nearest to `num / den`, a half going to the even
neighbour, where `scale` is the exponent of its last binary digit plus 1074.
A mantissa that rounds up to `2 ^ 53` carries into the exponent by itself. -/
def magnitudeAtScale (num den scale : Nat) : Nat :=
  scale * Nat.pow 2 52 +
    roundRatio (num * Nat.pow 2 (1074 - scale)) (den * Nat.pow 2 (scale - 1074))

/-- The exponent plus 1074 of the last of 53 binary digits of `num / den`, and
zero where the number is too small for 53 digits. -/
def scaleOfRatio (num den : Nat) : Nat :=
  -- `num / den` lies between `2 ^ (a - b - 1)` and `2 ^ (a - b + 1)`.
  let a := num.log2
  let b := den.log2
  let atLeast := if b ≤ a then den * Nat.pow 2 (a - b) ≤ num else den ≤ num * Nat.pow 2 (b - a)
  if atLeast then a + 1074 - (b + 52) else a + 1074 - (b + 53)

/-- The number nearest to `num / den`, with a half going to the even neighbour.
Ratios beyond the largest number become infinite. -/
def ofRatio (negative : Bool) (num den : Nat) : Binary64 :=
  if num = 0 then ofMagnitude negative 0
  else ofMagnitude negative (min infinityBits (magnitudeAtScale num den (scaleOfRatio num den)))

/-- The number nearest to a natural number. -/
def ofNat (n : Nat) : Binary64 := ofRatio false n 1

/-- The number nearest to `digits · 10 ^ exponent`. Exponents far outside the
range of the format are decided without computing the power. -/
def ofDecimal (negative : Bool) (digits : Nat) (exponent : Int) : Binary64 :=
  let size : Int := (Nat.toDigits 10 digits).length + exponent
  if digits = 0 ∨ size < -330 then ofMagnitude negative 0
  else if 320 < size then ofMagnitude negative infinityBits
  else ofRatio negative (digits * Nat.pow 10 exponent.toNat) (Nat.pow 10 (-exponent).toNat)

/-- The whole part of a finite non-negative number. -/
def toNat (x : Binary64) : Nat :=
  x.mantissa * Nat.pow 2 (x.scale - 1074) / Nat.pow 2 (1074 - x.scale)

end Binary64

end AddonIndex
