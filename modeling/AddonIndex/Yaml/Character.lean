import AddonIndex.Text.Basic

/-!
# Characters of YAML documents

Line breaks, blanks, the characters that a document may hold, and those that are
written without an escape.
-/

namespace AddonIndex.Yaml

/-- The line separator. -/
def lineSeparator : Char := '\u2028'

/-- The paragraph separator. -/
def paragraphSeparator : Char := '\u2029'

/-- Whether a character breaks a line. -/
def isBreak (c : Char) : Bool :=
  c == '\n' || c == '\r' || c == '\x85' || c == lineSeparator || c == paragraphSeparator

/-- Whether a character is a blank within a line. -/
def isBlank (c : Char) : Bool := c == ' ' || c == '\t'

/-- Whether a character is a blank or breaks a line. -/
def isGap (c : Char) : Bool := isBlank c || isBreak c

/-- Whether a text is at its end or goes on with a blank or a line break. -/
def startsGap : Text → Bool
  | [] => true
  | c :: _ => isGap c

/-- Whether a document may hold a character. -/
def isAllowed (c : Char) : Bool :=
  let n := c.toNat
  n == 0x09 || n == 0x0A || n == 0x0D || (0x20 ≤ n && n ≤ 0x7E) || n == 0x85 ||
    (0xA0 ≤ n && n ≤ 0xD7FF) || (0xE000 ≤ n && n ≤ 0xFFFD && n != 0xFEFF) || 0x10000 ≤ n

/-- Whether a character is written as it is, not by an escape. -/
def isPrintable (c : Char) : Bool :=
  let n := c.toNat
  n == 0x0A || (0x20 ≤ n && n ≤ 0x7E) || (0xA0 ≤ n && n ≤ 0xD7FF) ||
    (0xE000 ≤ n && n ≤ 0xFFFD && n != 0xFEFF) || 0x10000 ≤ n

/-- The characters that cannot begin a plain scalar. -/
def leadingMarks : List Char :=
  ['#', ',', '[', ']', '\x7b', '\x7d', '&', '*', '!', '|', '>', '\'', '"', '%', '@', '\x60']

/-- Take one line break off a text. Carriage return, line feed, both together,
and the next-line character all count as a line feed; the two separators stay
what they are. -/
def takeBreak? : Text → Option (Text × Text)
  | '\r' :: '\n' :: rest => some (['\n'], rest)
  | c :: rest =>
      if c = '\n' ∨ c = '\r' ∨ c = '\x85' then some (['\n'], rest)
      else if isBreak c then some ([c], rest)
      else none
  | [] => none

/-- What line breaks between two parts of a scalar stand for: a single line feed
for a blank, more than one for all but the first. -/
def foldBreaks (first later : Text) : Text :=
  if first = ['\n'] then (if later.isEmpty then [' '] else later) else first ++ later

end AddonIndex.Yaml
