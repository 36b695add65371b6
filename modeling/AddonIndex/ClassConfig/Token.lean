import AddonIndex.Number.Shortest
import AddonIndex.Text.Quoted

/-!
# Tokens

The tokens of a config text, the form in which messages show them, and the form
in which they stand in the text of an expression.
-/

namespace AddonIndex.ClassConfig

/-- A token. -/
inductive Token
  | word (name : Text)
  | number (value : Binary64)
  | string (text : Text)
  | openBrace
  | closeBrace
  | openBracket
  | closeBracket
  | colon
  | semicolon
  | comma
  | equals
  | plusEquals
  | other (c : Char)
deriving DecidableEq, Repr, Inhabited

/-- A token with the line on which it begins. -/
structure Lexeme where
  token : Token
  line : Nat
deriving DecidableEq, Repr, Inhabited

namespace Token

/-- How messages show a token. -/
def describe : Token → Text
  | word name => "Word(".toList ++ quoteText name ++ [')']
  | number value => "Number(".toList ++ value.debug ++ [')']
  | string text => "Str(".toList ++ quoteText text ++ [')']
  | openBrace => "LBrace"
  | closeBrace => "RBrace"
  | openBracket => "LBracket"
  | closeBracket => "RBracket"
  | colon => "Colon"
  | semicolon => "Semi"
  | comma => "Comma"
  | equals => "Eq"
  | plusEquals => "PlusEq"
  | other c => "Other(".toList ++ quoteChar c ++ [')']

/-- The text of a string literal between its quotes: each quote is doubled. -/
def doubleQuotes (text : Text) : Text :=
  text.flatMap fun c => if c = '"' then ['"', '"'] else [c]

/-- How a token is written in the text of an expression. -/
def render : Token → Text
  | word name => name
  | number value => value.plain
  | string text => ['"'] ++ doubleQuotes text ++ ['"']
  | openBrace => ['\x7b']
  | closeBrace => ['\x7d']
  | openBracket => ['[']
  | closeBracket => [']']
  | colon => [':']
  | semicolon => [';']
  | comma => [',']
  | equals => ['=']
  | plusEquals => ['+', '=']
  | other c => [c]

/-- The number of line ends inside a token. -/
def lineFeeds : Token → Nat
  | string text => text.count '\n'
  | _ => 0

end Token

end AddonIndex.ClassConfig
