import AddonIndex.Number.Binary64
import AddonIndex.Text.Basic

/-!
# Reading number literals

Decimal literals such as `-1.5e3` are read as the nearest 64-bit binary
floating-point number. Hexadecimal literals such as `0x1F` are read as 64-bit
integers and then rounded.
-/

namespace AddonIndex

/-- The value of a run of decimal digits. -/
def decimalValue (digits : Text) : Nat :=
  digits.foldl (fun value c => 10 * value + (c.toNat - '0'.toNat)) 0

/-- The value of a hexadecimal digit. -/
def hexDigitValue? (c : Char) : Option Nat :=
  if '0' ≤ c ∧ c ≤ '9' then some (c.toNat - '0'.toNat)
  else if 'a' ≤ c ∧ c ≤ 'f' then some (c.toNat - 'a'.toNat + 10)
  else if 'A' ≤ c ∧ c ≤ 'F' then some (c.toNat - 'A'.toNat + 10)
  else none

/-- The value of a non-empty run of hexadecimal digits. -/
def hexValue? (digits : Text) : Option Nat :=
  if digits.isEmpty then none
  else digits.foldlM (fun value c => (hexDigitValue? c).map (16 * value + ·)) 0

/-- Take a sign off a text; the flag tells whether it is a minus. -/
def takeSign : Text → Bool × Text
  | '-' :: rest => (true, rest)
  | '+' :: rest => (false, rest)
  | text => (false, text)

/-- An exponent part: `e` or `E`, a sign or none, and at least one digit. An
empty text is the exponent zero. -/
def readExponent? : Text → Option Int
  | [] => some 0
  | c :: rest =>
      if c = 'e' ∨ c = 'E' then
        let (negative, digits) := takeSign rest
        if digits.isEmpty ∨ !digits.all Char.isDigit then none
        else
          let value : Int := decimalValue digits
          some (if negative then -value else value)
      else none

/-- A decimal literal: a sign or none, digits with at most one point among them
and at least one digit, and an exponent part or none. -/
def readDecimal? (text : Text) : Option Binary64 :=
  let (negative, body) := takeSign text
  let whole := body.takeWhile Char.isDigit
  let afterWhole := body.dropWhile Char.isDigit
  let (fraction, tail) :=
    match afterWhole with
    | '.' :: rest => (rest.takeWhile Char.isDigit, rest.dropWhile Char.isDigit)
    | _ => ([], afterWhole)
  if whole.isEmpty ∧ fraction.isEmpty then none
  else
    (readExponent? tail).map fun exponent =>
      Binary64.ofDecimal negative (decimalValue (whole ++ fraction)) (exponent - fraction.length)

/-- A hexadecimal literal: any plus signs or one minus sign, `0x`, and the
digits of a 64-bit integer. -/
def readHex? (text : Text) : Option Binary64 :=
  let (negative, body) :=
    match text with
    | '-' :: rest => (true, rest)
    | _ => (false, text.dropWhile (· == '+'))
  match body with
  | '0' :: x :: digits =>
      if x = 'x' ∨ x = 'X' then
        match hexValue? digits with
        | some value =>
            if value < Nat.pow 2 63 then
              some (if negative then (Binary64.ofNat value).negate else Binary64.ofNat value)
            else none
        | none => none
      else none
  | _ => none

end AddonIndex
