import AddonIndex.Yaml.Character
import AddonIndex.Yaml.Schema

/-!
# Writing scalars

A text is written plainly if it reads back as itself, otherwise between single
quotes, and between double quotes with escapes if single quotes do not keep it.
A text with line feeds is written as a block if a block keeps it.
-/

namespace AddonIndex.Yaml

/-- What decides how a text can be written. -/
structure Traits where
  /-- Something in the text would be taken for a mark. -/
  hasMark : Bool
  /-- Some character needs an escape. -/
  hasSpecial : Bool
  hasBreak : Bool
  /-- The text begins or ends with a space or a line break. -/
  hasOuterGap : Bool
  endsWithSpace : Bool
  hasSpaceAfterBreak : Bool
  hasSpaceBeforeBreak : Bool
deriving DecidableEq, Repr

/-- Whether a mark stands in the rest of a text. The flag tells whether a gap or the
beginning of the text precedes it. -/
def hasInnerMark (afterGap : Bool) : Text → Bool
  | [] => false
  | c :: rest =>
      (c == ':' && startsGap rest) || (c == '#' && afterGap) || hasInnerMark (isGap c) rest

/-- Whether something in a text would be taken for a mark. -/
def containsMark (text : Text) : Bool :=
  text.startsWith "---".toList || text.startsWith "...".toList ||
    (match text with
      | [] => false
      | c :: rest =>
          leadingMarks.contains c || ((c == '-' || c == '?') && startsGap rest)) ||
    hasInnerMark true text

/-- Whether some neighbouring characters satisfy a condition. -/
def hasPair (condition : Char → Char → Bool) : Text → Bool
  | a :: b :: rest => condition a b || hasPair condition (b :: rest)
  | _ => false

/-- The traits of a text. -/
def Traits.of (text : Text) : Traits :=
  let outer (c : Option Char) : Bool :=
    match c with
    | some c => c == ' ' || isBreak c
    | none => false
  { hasMark := containsMark text
    hasSpecial := text.any (!isPrintable ·)
    hasBreak := text.any isBreak
    hasOuterGap := outer text.head? || outer text.getLast?
    endsWithSpace := text.getLast? == some ' '
    hasSpaceAfterBreak := hasPair (fun a b => isBreak a && b == ' ') text
    hasSpaceBeforeBreak := hasPair (fun a b => a == ' ' && isBreak b) text }

namespace Traits

/-- Whether a plain scalar keeps the text. -/
def allowsPlain (traits : Traits) : Bool :=
  !traits.hasMark && !traits.hasSpecial && !traits.hasBreak && !traits.hasOuterGap

/-- Whether single quotes keep the text. -/
def allowsSingleQuotes (traits : Traits) : Bool :=
  !traits.hasSpecial && !traits.hasSpaceAfterBreak && !traits.hasSpaceBeforeBreak

/-- Whether a block keeps the text. -/
def allowsBlock (traits : Traits) : Bool :=
  !traits.hasSpecial && !traits.hasSpaceBeforeBreak && !traits.endsWithSpace

end Traits

/-- The style in which a text is written. -/
def chooseStyle (text : Text) : ScalarStyle :=
  let traits := Traits.of text
  if text.contains '\n' then (if traits.allowsBlock then .literal else .doubleQuoted)
  else if traits.allowsPlain ∧ !isAmbiguous text then .plain
  else if traits.allowsSingleQuotes then .singleQuoted
  else .doubleQuoted

/-- The indentation of the lines of a scalar. -/
def indentation : Text := [' ', ' ']

/-- The inside of single quotes. The flag tells whether a line break precedes. -/
def singleQuotedBody (afterBreak : Bool) : Text → Text
  | [] => if afterBreak then indentation else []
  | c :: rest =>
      if isBreak c then c :: singleQuotedBody true rest
      else
        (if afterBreak then indentation else []) ++
          (if c = '\'' then ['\'', '\''] else [c]) ++ singleQuotedBody false rest

/-- The digits of a number to the base sixteen, in capitals, of a given count. -/
def capitalHex (count n : Nat) : Text :=
  let digits := (Nat.toDigits 16 n).map Char.toUpper
  List.replicate (count - digits.length) '0' ++ digits

/-- A character between double quotes. -/
def escapeChar (c : Char) : Text :=
  let n := c.toNat
  if c = '"' then ['\\', '"']
  else if c = '\\' then ['\\', '\\']
  else if isPrintable c ∧ !isBreak c then [c]
  else if n = 0x00 then ['\\', '0']
  else if n = 0x07 then ['\\', 'a']
  else if n = 0x08 then ['\\', 'b']
  else if n = 0x09 then ['\\', 't']
  else if n = 0x0A then ['\\', 'n']
  else if n = 0x0B then ['\\', 'v']
  else if n = 0x0C then ['\\', 'f']
  else if n = 0x0D then ['\\', 'r']
  else if n = 0x1B then ['\\', 'e']
  else if n = 0x85 then ['\\', 'N']
  else if n = 0x2028 then ['\\', 'L']
  else if n = 0x2029 then ['\\', 'P']
  else if n ≤ 0xFF then ['\\', 'x'] ++ capitalHex 2 n
  else if n ≤ 0xFFFF then ['\\', 'u'] ++ capitalHex 4 n
  else ['\\', 'U'] ++ capitalHex 8 n

/-- The lines of a block. The flag tells whether a line begins. -/
def blockBody (atLineStart : Bool) : Text → Text
  | [] => []
  | c :: rest =>
      if isBreak c then c :: blockBody true rest
      else (if atLineStart then indentation else []) ++ c :: blockBody false rest

/-- The marks after the sign of a block: the indentation, if the text begins with
a gap, and what becomes of the line breaks at its end. -/
def blockMarks (text : Text) : Text :=
  let first : Text :=
    match text with
    | c :: _ => if c = ' ' ∨ isBreak c then ['2'] else []
    | [] => []
  let last : Text :=
    match text.reverse with
    | [] => ['-']
    | [c] => if isBreak c then ['+'] else ['-']
    | c :: before :: _ =>
        if !isBreak c then ['-'] else if isBreak before then ['+'] else []
  first ++ last

/-- A text as a scalar in a style, up to and including the end of its last line. -/
def writeAs (style : ScalarStyle) (text : Text) : Text :=
  match style with
  | .singleQuoted => '\'' :: singleQuotedBody false text ++ ['\'', '\n']
  | .doubleQuoted => '"' :: text.flatMap escapeChar ++ ['"', '\n']
  | .literal =>
      '|' :: blockMarks text ++ '\n' :: blockBody true text ++
        (match text.getLast? with
          | some c => if isBreak c then [] else ['\n']
          | none => [])
  | _ => text ++ ['\n']

/-- A text as a scalar, up to and including the end of its last line. -/
def writeText (text : Text) : Text := writeAs (chooseStyle text) text

/-- A list of texts as the value of a key: an empty one on the line of the key,
others with a line for each item. -/
def writeTexts (texts : List Text) : Text :=
  if texts.isEmpty then " []\n".toList
  else '\n' :: texts.flatMap fun text => "- ".toList ++ writeText text

end AddonIndex.Yaml
