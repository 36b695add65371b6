import AddonIndex.Text.Basic

/-!
# Durations

Lengths of time in nanoseconds, and their text: in the largest of the units
second, millisecond, microsecond and nanosecond of which there is at least one,
with as many decimal places as are needed.
-/

namespace AddonIndex

/-- A length of time. -/
structure Duration where
  nanoseconds : Nat
deriving DecidableEq, Inhabited, Repr

namespace Duration

/-- A number of whole seconds. -/
def ofSeconds (n : Nat) : Duration := ⟨n * 1000000000⟩

/-- A number of whole milliseconds. -/
def ofMilliseconds (n : Nat) : Duration := ⟨n * 1000000⟩

/-- The whole milliseconds in a length of time. -/
def milliseconds (d : Duration) : Nat := d.nanoseconds / 1000000

/-- A number of units, each of `10 ^ places` nanoseconds, with the decimal places
that are needed. -/
def inUnit (nanoseconds places : Nat) (unit : Text) : Text :=
  let fraction := Text.ofNat (nanoseconds % Nat.pow 10 places)
  let padded := List.replicate (places - fraction.length) '0' ++ fraction
  let digits := Text.dropEndWhile (· == '0') padded
  Text.ofNat (nanoseconds / Nat.pow 10 places) ++
    (if digits.isEmpty then [] else '.' :: digits) ++ unit

/-- The text of a length of time. -/
def text (d : Duration) : Text :=
  if 1000000000 ≤ d.nanoseconds then inUnit d.nanoseconds 9 "s"
  else if 1000000 ≤ d.nanoseconds then inUnit d.nanoseconds 6 "ms"
  else if 1000 ≤ d.nanoseconds then inUnit d.nanoseconds 3 "µs"
  else inUnit d.nanoseconds 0 "ns"

end Duration

end AddonIndex
