import AddonIndex.Number.Literal
import AddonIndex.Yaml.Node

/-!
# The core schema

Which plain scalars are nulls, truth values and numbers.
-/

namespace AddonIndex.Yaml

/-- Whether a text is a null. -/
def isNull (text : Text) : Bool :=
  ["null".toList, "Null".toList, "NULL".toList, "~".toList].contains text

/-- The truth value that a text stands for. -/
def truthValue? (text : Text) : Option Bool :=
  if ["true".toList, "True".toList, "TRUE".toList].contains text then some true
  else if ["false".toList, "False".toList, "FALSE".toList].contains text then some false
  else none

/-- A text without a sign. -/
def dropSign : Text → Text
  | '-' :: rest => rest
  | '+' :: rest => rest
  | text => text

/-- Whether a text consists of digits and is no number because of a leading
zero. -/
def hasLeadingZero (text : Text) : Bool :=
  match dropSign text with
  | '0' :: next :: rest => (next :: rest).all Char.isDigit
  | _ => false

/-- The value of a non-empty run of digits to a base up to sixteen. -/
def radixValue? (base : Nat) (digits : Text) : Option Nat :=
  if digits.isEmpty then none
  else
    digits.foldlM
      (fun value c =>
        match hexDigitValue? c with
        | some digit => if digit < base then some (base * value + digit) else none
        | none => none)
      0

/-- The value of a natural number, which may have a plus sign or a base mark. -/
def natural? (text : Text) : Option Nat :=
  let unsigned := match text with
    | '+' :: rest => rest
    | _ => text
  match unsigned with
  | '0' :: 'x' :: digits => radixValue? 16 digits
  | '0' :: 'o' :: digits => radixValue? 8 digits
  | '0' :: 'b' :: digits => radixValue? 2 digits
  | _ => if hasLeadingZero text then none else radixValue? 10 unsigned

/-- The magnitude of a number with a minus sign, which may have a base mark. -/
def negative? (text : Text) : Option Nat :=
  match text with
  | '-' :: '0' :: 'x' :: digits => radixValue? 16 digits
  | '-' :: '0' :: 'o' :: digits => radixValue? 8 digits
  | '-' :: '0' :: 'b' :: digits => radixValue? 2 digits
  | '-' :: digits => if hasLeadingZero text then none else radixValue? 10 digits
  | _ => none

/-- Whether a text is an integer of at most 128 bits. -/
def isInteger (text : Text) : Bool :=
  match natural? text with
  | some value => value < Nat.pow 2 128
  | none =>
      match negative? text with
      | some magnitude => magnitude ≤ Nat.pow 2 127
      | none => false

/-- Whether a text is a floating-point number, infinite, or not a number. -/
def isFloating (text : Text) : Bool :=
  let unsigned := match text with
    | '+' :: rest => rest
    | _ => text
  if [".inf".toList, ".Inf".toList, ".INF".toList].contains unsigned then true
  else if ["-.inf".toList, "-.Inf".toList, "-.INF".toList].contains text then true
  else if [".nan".toList, ".NaN".toList, ".NAN".toList].contains text then true
  else if hasLeadingZero text then false
  else if text.head? = some '+' ∧ (unsigned.head? = some '+' ∨ unsigned.head? = some '-') then false
  else
    match readDecimal? unsigned with
    | some value => value.isFinite
    | none => false

/-- Whether a plain scalar of this text would be read as something else than a
text, or might be by other readers. -/
def isAmbiguous (text : Text) : Bool :=
  text.isEmpty || isNull text || (truthValue? text).isSome || isInteger text ||
    isFloating text || hasLeadingZero text

end AddonIndex.Yaml
