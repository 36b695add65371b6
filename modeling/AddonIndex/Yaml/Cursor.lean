import AddonIndex.Yaml.Character

/-!
# Places in a document

A cursor is what is left of a document together with the line and the column
where it begins. Blanks and comments lie between the parts of a document; they
are passed over here, and it is kept whether a line break was among them,
because in a block a mapping or a sequence can begin on a new line only.
-/

namespace AddonIndex.Yaml

/-- A place in a document. -/
structure Cursor where
  /-- The text from here on. -/
  rest : Text
  /-- The number of characters before this place. -/
  index : Nat := 0
  line : Nat := 0
  /-- The number of characters before this place on its line. -/
  column : Nat := 0
  /-- Whether a key or the sign of an entry can stand here. -/
  keys : Bool := true
deriving Repr

/-- Whether a text begins with three times the same sign and then a gap. -/
def isMarker (sign : Char) (text : Text) : Bool :=
  match text with
  | a :: b :: c :: rest => a == sign && b == sign && c == sign && startsGap rest
  | _ => false

/-- Whether a line that begins with this text separates documents. -/
def isSeparator (text : Text) : Bool := isMarker '-' text || isMarker '.' text

/-- Whether a text begins with a sign and then a gap. -/
def startsSign (sign : Char) (text : Text) : Bool :=
  match text with
  | c :: rest => c == sign && startsGap rest
  | [] => false

/-- Whether nothing but a comment is left on the line that begins with a text. -/
def endsLine : Text → Bool
  | [] => true
  | c :: _ => c == '#' || isBreak c

/-- Pass over blanks, line breaks and comments, and tell whether keys can stand
after them. A tab is passed over only where no key can stand. -/
def skipGapText (flow : Bool) (keys comment : Bool) : Text → Text × Bool
  | [] => ([], keys)
  | c :: rest =>
      if isBreak c then skipGapText flow (keys || !flow) false rest
      else if comment then skipGapText flow keys true rest
      else if c = '#' then skipGapText flow keys true rest
      else if c = ' ' ∨ (c = '\t' ∧ (flow ∨ !keys)) then skipGapText flow keys false rest
      else (c :: rest, keys)

namespace Cursor

/-- The place after some more characters. A carriage return and a line feed
together break one line. -/
def advance (cursor : Cursor) : Nat → Cursor
  | 0 => cursor
  | count + 1 =>
      match cursor.rest with
      | [] => cursor
      | c :: rest =>
          let next :=
            if isBreak c && !(c == '\r' && rest.head? == some '\n') then
              { cursor with rest, index := cursor.index + 1, line := cursor.line + 1, column := 0 }
            else
              { cursor with rest, index := cursor.index + 1, column := cursor.column + 1 }
          next.advance count

/-- The place where a later part of the text begins. -/
def moveTo (cursor : Cursor) (rest : Text) : Cursor :=
  cursor.advance (cursor.rest.length - rest.length)

/-- The next place that is no gap. -/
def skipGaps (flow : Bool) (cursor : Cursor) : Cursor :=
  let (rest, keys) := skipGapText flow cursor.keys false cursor.rest
  { cursor.moveTo rest with keys }

/-- The next place on the line that is no blank. -/
def skipBlanks (cursor : Cursor) : Cursor := cursor.moveTo (cursor.rest.dropWhile isBlank)

/-- Whether the document ends here: with the text, a separator or a directive. -/
def isFinal (cursor : Cursor) : Bool :=
  cursor.rest.isEmpty ||
    (cursor.column == 0 && (isSeparator cursor.rest || cursor.rest.head? == some '%'))

/-- Whether a key that begins at `start` can end here: on the same line, and at
most 1024 characters later. -/
def closesKey (cursor start : Cursor) : Bool :=
  start.keys && cursor.line == start.line && cursor.index ≤ start.index + 1024

end Cursor

end AddonIndex.Yaml
