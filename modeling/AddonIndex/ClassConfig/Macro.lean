import AddonIndex.OrderedMap
import AddonIndex.Text.Basic

/-!
# Macros and their expansion

A line falls into pieces: identifiers that may name a macro, and everything
else, character by character. String literals and number literals with their
suffixes belong to everything else. One pass replaces each identifier that names
an object-like macro by the body of that macro; function-like macros stay as
they are. Passes are repeated while they change something, eight times at most.
-/

namespace AddonIndex.ClassConfig

/-- A macro: its parameter list, if it has one, and its replacement text. -/
structure Macro where
  parameters : Option Text
  body : Text
deriving DecidableEq, Repr, Inhabited

/-- The macros that are defined at some point. -/
abbrev MacroTable := OrderedMap Macro

/-- Whether a character can be part of an identifier. -/
def isIdentifierChar (c : Char) : Bool := c.isAlphanum || c == '_'

/-- A piece of a line. -/
inductive Piece
  | identifier (name : Text)
  | verbatim (c : Char)
deriving DecidableEq, Repr

namespace Piece

/-- The text of a piece. -/
def text : Piece → Text
  | identifier name => name
  | verbatim c => [c]

/-- The text that replaces a piece. -/
def replaced (macros : MacroTable) : Piece → Text
  | verbatim c => [c]
  | identifier name =>
      match macros.value? name with
      | some ⟨none, body⟩ => body
      | _ => name

/-- Whether a piece names an object-like macro. -/
def isReplaceable (macros : MacroTable) : Piece → Bool
  | verbatim _ => false
  | identifier name =>
      match macros.value? name with
      | some ⟨none, _⟩ => true
      | _ => false

end Piece

/-- What the scanner for identifiers is inside of. -/
inductive PieceMode
  | between
  | identifier (start : Text)
  | number
  | string
deriving DecidableEq, Repr

/-- The identifier that ends at this point, if there is one. -/
def PieceMode.flush : PieceMode → List Piece
  | .identifier start => [.identifier start]
  | _ => []

/-- The pieces of a line, beginning in the given mode. -/
def piecesFrom : PieceMode → Text → List Piece
  | mode, [] => mode.flush
  | .string, c :: rest =>
      .verbatim c :: piecesFrom (if c = '"' then .between else .string) rest
  | mode, c :: rest =>
      if isIdentifierChar c then
        match mode with
        | .identifier start => piecesFrom (.identifier (start ++ [c])) rest
        | .number => .verbatim c :: piecesFrom .number rest
        | _ =>
            if c.isDigit then .verbatim c :: piecesFrom .number rest
            else piecesFrom (.identifier [c]) rest
      else
        mode.flush ++ .verbatim c :: piecesFrom (if c = '"' then .string else .between) rest

/-- The pieces of a line. -/
def pieces (line : Text) : List Piece := piecesFrom .between line

/-- A line with each object-like macro replaced once. -/
def expandOnce (macros : MacroTable) (line : Text) : Text :=
  (pieces line).flatMap (Piece.replaced macros)

/-- Whether a line names an object-like macro. -/
def hasReplaceable (macros : MacroTable) (line : Text) : Bool :=
  (pieces line).any (Piece.isReplaceable macros)

/-- Repeat the replacement while there is something to replace, at most
`passes` times. -/
def expandPasses (macros : MacroTable) : (passes : Nat) → Text → Text
  | 0, line => line
  | passes + 1, line =>
      if hasReplaceable macros line then expandPasses macros passes (expandOnce macros line)
      else line

/-- The largest number of passes over a line. -/
def maxExpansionPasses : Nat := 8

/-- A line with its macros expanded. -/
def expand (macros : MacroTable) (line : Text) : Text :=
  expandPasses macros maxExpansionPasses line

end AddonIndex.ClassConfig
