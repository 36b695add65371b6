import AddonIndex.Sequence

/-!
# Text

A text is the list of its characters, so that every rule about texts is a rule
about lists. This module holds the operations that do not depend on a character
class: lines, splitting and joining, replacement, comparison that ignores the
case of ASCII letters, and the passage to and from UTF-8.
-/

namespace AddonIndex

/-- A text is the list of its characters. -/
abbrev Text := List Char

instance : Coe String Text := ⟨String.toList⟩

namespace Text

/-- The text in the form that is printed. -/
def toString (text : Text) : String := String.ofList text

/-- A natural number in decimal digits. -/
def ofNat (n : Nat) : Text := Nat.toDigits 10 n

/-- An integer in decimal digits, with a minus sign if it is negative. -/
def ofInt : Int → Text
  | .ofNat n => ofNat n
  | .negSucc n => '-' :: ofNat (n + 1)

/-- Put the first character in front of the first line. -/
def consLine (c : Char) : List Text → List Text
  | [] => [[c]]
  | line :: rest => (c :: line) :: rest

/-- The lines of a text. A line feed ends a line, so a text that ends with one
has no empty last line. -/
def feedLines : Text → List Text
  | [] => []
  | c :: rest => if c = '\n' then [] :: feedLines rest else consLine c (feedLines rest)

@[simp]
theorem feedLines_nil : feedLines [] = [] :=
  rfl

@[simp]
theorem feedLines_lineFeed (rest : Text) : feedLines ('\n' :: rest) = [] :: feedLines rest :=
  rfl

theorem feedLines_cons {c : Char} (ordinary : c ≠ '\n') (rest : Text) :
    feedLines (c :: rest) = consLine c (feedLines rest) := by
  simp [feedLines, ordinary]

/-- The parts of a text between the characters that satisfy `isBreak`. There is
one part more than there are such characters. -/
def split (isBreak : Char → Bool) : Text → List Text
  | [] => [[]]
  | c :: rest =>
      if isBreak c then [] :: split isBreak rest else consLine c (split isBreak rest)

theorem split_ne_nil (isBreak : Char → Bool) (text : Text) : split isBreak text ≠ [] := by
  cases text with
  | nil => simp [split]
  | cons c rest =>
      unfold split
      split
      · simp
      · cases split isBreak rest <;> simp [consLine]

/-- The texts one after another with `separator` between neighbours. -/
def joinWith (separator : Text) (parts : List Text) : Text :=
  separator.intercalate parts

/-- Whether a text starts with `lead`. -/
def startsWith (text lead : Text) : Bool := (dropLead? lead text).isSome

/-- What precedes `ending` in a text that ends with it. -/
def dropEnding? (ending text : Text) : Option Text :=
  (dropLead? ending.reverse text.reverse).map List.reverse

/-- The text without the longest run of its last characters that satisfy `p`. -/
def dropEndWhile (p : Char → Bool) (text : Text) : Text :=
  (text.reverse.dropWhile p).reverse

/-- Each occurrence of `pattern`, found from left to right and not overlapping,
is replaced. An empty pattern replaces nothing. -/
def replace (pattern replacement : Text) : Text → Text
  | [] => []
  | c :: rest =>
      match pattern with
      | [] => c :: rest
      | p :: ps =>
          match _found : dropLead? (p :: ps) (c :: rest) with
          | some after => replacement ++ replace (p :: ps) replacement after
          | none => c :: replace (p :: ps) replacement rest
termination_by text => text.length
decreasing_by
  · have parts := dropLead?_eq_some_iff.1 _found
    have lengths := congrArg List.length parts
    simp at lengths ⊢
    omega
  · simp

/-- The text with ASCII capitals made small. -/
def lower (text : Text) : Text := text.map Char.toLower

/-- Equality up to the case of ASCII letters. -/
def sameIgnoringCase (a b : Text) : Bool := lower a == lower b

/-- The number of bytes of the UTF-8 form. -/
def utf8Size : Text → Nat
  | [] => 0
  | c :: rest => c.utf8Size + utf8Size rest

@[simp]
theorem utf8Size_append (a b : Text) : utf8Size (a ++ b) = utf8Size a + utf8Size b := by
  induction a with
  | nil => simp [utf8Size]
  | cons c a ih => simp [utf8Size, ih, Nat.add_assoc]

/-- The UTF-8 form. -/
def encode (text : Text) : ByteArray := (String.ofList text).toUTF8

/-- The text that a byte sequence is the UTF-8 form of, if it is one. -/
def decode? (bytes : ByteArray) : Option Text := (String.fromUTF8? bytes).map String.toList

end Text

end AddonIndex
