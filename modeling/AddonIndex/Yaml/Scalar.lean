import AddonIndex.Number.Literal
import AddonIndex.Yaml.Cursor

/-!
# Reading scalars

How the text of a scalar follows from the characters of the document. A scalar
may go on over several lines; what lies between two of its words is a `Filling`,
and a line break there counts as a blank.
-/

namespace AddonIndex.Yaml

/-- What was passed over since the last word of a scalar. -/
inductive Filling
  | nothing
  | blanks (text : Text)
  /-- A line break, the line breaks after it, and the column reached since. -/
  | lines (first later : Text) (column : Nat)
deriving DecidableEq, Repr

/-- The text of a line break: a line feed, unless it is one of the separators. -/
def breakText (c : Char) : Text :=
  if c = lineSeparator ∨ c = paragraphSeparator then [c] else ['\n']

/-- Whether the character in front of a text is the first half of a line break of
two characters. -/
def isHalfBreak (c : Char) (rest : Text) : Bool := c == '\r' && rest.head? == some '\n'

namespace Filling

/-- One more blank. -/
def addBlank (filling : Filling) (c : Char) : Filling :=
  match filling with
  | nothing => blanks [c]
  | blanks text => blanks (text ++ [c])
  | lines first later column => lines first later (column + 1)

/-- One more line break. Blanks before it do not count. -/
def addBreak (filling : Filling) (c : Char) : Filling :=
  match filling with
  | lines first later _ => lines first (later ++ breakText c) 0
  | _ => lines (breakText c) [] 0

/-- The text that stands for what was passed over. -/
def text : Filling → Text
  | nothing => []
  | blanks text => text
  | lines first later _ => foldBreaks first later

/-- Whether a line break was passed over. -/
def hasBreak : Filling → Bool
  | lines .. => true
  | _ => false

/-- Whether a line was begun that does not reach a column. -/
def isBefore (filling : Filling) (column : Nat) : Bool :=
  match filling with
  | lines _ _ reached => reached < column
  | _ => false

end Filling

/-- The characters that have a meaning in a flow collection. -/
def flowSigns : List Char := [',', '[', ']', '\x7b', '\x7d']

/-- Whether a plain scalar ends before a character. -/
def endsPlain (flow : Bool) (c : Char) (rest : Text) : Bool :=
  (c == ':' && startsGap rest) || (flow && flowSigns.contains c)

/-- Whether a colon in a flow collection stands too close to what follows. -/
def isCrowded (flow : Bool) (c : Char) (rest : Text) : Bool :=
  flow && c == ':' &&
    (match rest with
      | next :: _ => next == '?' || flowSigns.contains next
      | [] => false)

/-- A plain scalar whose later lines begin at `margin` or further right: its text,
what follows, and whether a line break precedes that. -/
def readPlain (flow : Bool) (margin : Nat) (filling : Filling) :
    Text → Option (Text × Text × Bool)
  | [] => some ([], [], filling.hasBreak)
  | c :: rest =>
      if isHalfBreak c rest then readPlain flow margin filling rest
      else if isBreak c then readPlain flow margin (filling.addBreak c) rest
      else if isBlank c then
        if c = '\t' ∧ filling.isBefore margin then none
        else readPlain flow margin (filling.addBlank c) rest
      else if (!flow && filling.isBefore margin) ||
          (filling.isBefore 1 && isSeparator (c :: rest)) ||
          (c == '#' && filling != .nothing) then
        some ([], c :: rest, filling.hasBreak)
      else if isCrowded flow c rest then none
      else if endsPlain flow c rest then some ([], c :: rest, filling.hasBreak)
      else
        (readPlain flow margin .nothing rest).map fun (text, after) =>
          (filling.text ++ c :: text, after)

/-- The inside of single quotes, where a quote is written twice, and what
follows. -/
def readSingleQuoted (filling : Filling) : Text → Option (Text × Text)
  | [] => none
  | '\'' :: '\'' :: rest =>
      (readSingleQuoted .nothing rest).map fun (text, after) => (filling.text ++ '\'' :: text, after)
  | c :: rest =>
      if isHalfBreak c rest then readSingleQuoted filling rest
      else if isBreak c then readSingleQuoted (filling.addBreak c) rest
      else if isBlank c then readSingleQuoted (filling.addBlank c) rest
      else if filling.isBefore 1 && isSeparator (c :: rest) then none
      else if c = '\'' then some (filling.text, rest)
      else
        (readSingleQuoted .nothing rest).map fun (text, after) => (filling.text ++ c :: text, after)

/-- The character that a backslash and a letter stand for. -/
def escaped? (c : Char) : Option Char :=
  match c with
  | '0' => some '\x00'
  | 'a' => some '\x07'
  | 'b' => some '\x08'
  | 't' | '\t' => some '\t'
  | 'n' => some '\n'
  | 'v' => some '\x0b'
  | 'f' => some '\x0c'
  | 'r' => some '\r'
  | 'e' => some '\x1b'
  | ' ' => some ' '
  | '"' => some '"'
  | '/' => some '/'
  | '\\' => some '\\'
  | 'N' => some '\x85'
  | '_' => some '\xa0'
  | 'L' => some lineSeparator
  | 'P' => some paragraphSeparator
  | _ => none

/-- The number of digits after a backslash and a letter that together stand for
the character of a number. -/
def escapeLength? (c : Char) : Option Nat :=
  match c with
  | 'x' => some 2
  | 'u' => some 4
  | 'U' => some 8
  | _ => none

/-- The character of a number, if there is one. -/
def charOf? (code : Nat) : Option Char :=
  if code.isValidChar then some (Char.ofNat code) else none

/-- What was read last between double quotes. -/
inductive QuoteState
  | words (filling : Filling)
  /-- A backslash. -/
  | escape
  /-- The letter of a numbered character and some of its digits, of which `left + 1`
  are still missing. -/
  | code (left value : Nat)
deriving DecidableEq, Repr

/-- The inside of double quotes and what follows. -/
def readDoubleQuoted : QuoteState → Text → Option (Text × Text)
  | _, [] => none
  | .words filling, c :: rest =>
      if isHalfBreak c rest then readDoubleQuoted (.words filling) rest
      else if isBreak c then readDoubleQuoted (.words (filling.addBreak c)) rest
      else if isBlank c then readDoubleQuoted (.words (filling.addBlank c)) rest
      else if filling.isBefore 1 && isSeparator (c :: rest) then none
      else if c = '"' then some (filling.text, rest)
      else if c = '\\' then
        (readDoubleQuoted .escape rest).map fun (text, after) => (filling.text ++ text, after)
      else
        (readDoubleQuoted (.words .nothing) rest).map fun (text, after) =>
          (filling.text ++ c :: text, after)
  | .escape, c :: rest =>
      if isHalfBreak c rest then readDoubleQuoted .escape rest
      else if isBreak c then readDoubleQuoted (.words (.lines [] [] 0)) rest
      else
        match escaped? c, escapeLength? c with
        | some meant, _ =>
            (readDoubleQuoted (.words .nothing) rest).map fun (text, after) => (meant :: text, after)
        | none, some length => readDoubleQuoted (.code (length - 1) 0) rest
        | none, none => none
  | .code left value, c :: rest =>
      match hexDigitValue? c with
      | none => none
      | some digit =>
          match left with
          | left + 1 => readDoubleQuoted (.code left (16 * value + digit)) rest
          | 0 =>
              match charOf? (16 * value + digit) with
              | none => none
              | some meant =>
                  (readDoubleQuoted (.words .nothing) rest).map fun (text, after) =>
                    (meant :: text, after)

/-- What becomes of the line breaks at the end of a block. -/
inductive Chomping
  | strip
  | clip
  | keep
deriving DecidableEq, Repr

/-- What was read last in a block. -/
inductive BlockState
  /-- A line, which began with a blank or did not. -/
  | line (indented : Bool)
  /-- The end of a line that began with a blank or did not, the empty lines after
  it, and the column reached since. -/
  | margin (indented : Bool) (lineEnd emptyLines : Text) (column : Nat)
deriving DecidableEq, Repr

namespace BlockState

/-- The text that stands for the line breaks before the next line of a block. -/
def text (folded nextIndented : Bool) : BlockState → Text
  | line _ => []
  | margin indented lineEnd emptyLines _ =>
      if folded ∧ lineEnd = ['\n'] ∧ !indented ∧ !nextIndented then foldBreaks lineEnd emptyLines
      else lineEnd ++ emptyLines

/-- The text that stands for the line breaks at the end of a block. -/
def tailText (chomping : Chomping) : BlockState → Text
  | line _ => []
  | margin _ lineEnd emptyLines _ =>
      match chomping with
      | .strip => []
      | .clip => lineEnd
      | .keep => lineEnd ++ emptyLines

end BlockState

/-- The lines of a block that begin at a column, and what follows. -/
def readBlockLines (folded : Bool) (chomping : Chomping) (indent : Nat) :
    BlockState → Text → Option (Text × Text)
  | state, [] => some (state.tailText chomping, [])
  | .line indented, c :: rest =>
      if isHalfBreak c rest then readBlockLines folded chomping indent (.line indented) rest
      else if isBreak c then
        readBlockLines folded chomping indent (.margin indented (breakText c) [] 0) rest
      else
        (readBlockLines folded chomping indent (.line indented) rest).map fun (text, after) =>
          (c :: text, after)
  | .margin indented lineEnd emptyLines column, c :: rest =>
      if isHalfBreak c rest then
        readBlockLines folded chomping indent (.margin indented lineEnd emptyLines column) rest
      else if isBreak c then
        readBlockLines folded chomping indent
          (.margin indented lineEnd (emptyLines ++ breakText c) 0) rest
      else if column < indent then
        if c = ' ' then
          readBlockLines folded chomping indent
            (.margin indented lineEnd emptyLines (column + 1)) rest
        else if c = '\t' then none
        else some ((BlockState.margin indented lineEnd emptyLines column).tailText chomping, c :: rest)
      else
        (readBlockLines folded chomping indent (.line (isBlank c)) rest).map fun (text, after) =>
          ((BlockState.margin indented lineEnd emptyLines column).text folded (isBlank c) ++ c :: text,
            after)

/-- The greatest column that is reached by spaces before the first line of a block
that is not empty. -/
def detectIndent? (column greatest : Nat) : Text → Option Nat
  | [] => some (max column greatest)
  | c :: rest =>
      if c = ' ' then detectIndent? (column + 1) greatest rest
      else if c = '\t' then none
      else if isBreak c then detectIndent? 0 (max column greatest) rest
      else some (max column greatest)

/-- The marks after the sign of a block: what becomes of the line breaks at the
end, and the indentation. -/
def readBlockMarks? (text : Text) : Option (Chomping × Option Nat × Text) :=
  let chomping? : Text → Option (Chomping × Text)
    | '+' :: rest => some (.keep, rest)
    | '-' :: rest => some (.strip, rest)
    | _ => none
  let digit? : Text → Option (Nat × Text)
    | c :: rest => if c.isDigit then some (c.toNat - '0'.toNat, rest) else none
    | [] => none
  let (chomping, digit, rest) :=
    match chomping? text with
    | some (chomping, rest) =>
        match digit? rest with
        | some (digit, rest) => (chomping, some digit, rest)
        | none => (chomping, none, rest)
    | none =>
        match digit? text with
        | some (digit, rest) =>
            match chomping? rest with
            | some (chomping, rest) => (chomping, some digit, rest)
            | none => (.clip, some digit, rest)
        | none => (.clip, none, text)
  if digit = some 0 then none else some (chomping, digit, rest)

/-- The rest of a document after the line that begins with a text. -/
def afterLine (text : Text) : Text :=
  match takeBreak? (text.dropWhile (!isBreak ·)) with
  | some (_, rest) => rest
  | none => []

/-- A block after its sign, within lines that begin at `margin` or further right,
and what follows. -/
def readBlock (folded : Bool) (margin : Nat) (text : Text) : Option (Text × Text) := do
  let (chomping, digit, rest) ← readBlockMarks? text
  if !endsLine (rest.dropWhile isBlank) then none
  else
    let lines := afterLine rest
    let indent ←
      match digit with
      | some digit => some (margin - 1 + digit)
      | none => (detectIndent? 0 0 lines).map fun found => max (max found margin) 1
    readBlockLines folded chomping indent (.margin false [] [] 0) lines

end AddonIndex.Yaml
