import AddonIndex.ClassConfig.Macro
import AddonIndex.Text.Blank

/-!
# Directives

A logical line whose first visible character is `#` is a directive: a keyword
and an argument. This module reads lines as directives and the arguments of
`#define` and `#include` in turn.
-/

namespace AddonIndex.ClassConfig

/-- A directive with its argument. -/
inductive Directive
  | define (argument : Text)
  | undefine (name : Text)
  | inclusion (argument : Text)
  | ifDefined (name : Text)
  | ifNotDefined (name : Text)
  | ifValue (condition : Text)
  | otherwise
  | endIf
  /-- A directive without an effect on configs. -/
  | other
deriving DecidableEq, Repr

/-- A logical line. -/
inductive Line
  | ordinary (text : Text)
  | directive (directive : Directive)
deriving DecidableEq, Repr

/-- The directive with a keyword and an argument. -/
def Directive.ofKeyword (keyword argument : Text) : Directive :=
  if keyword = "define".toList then .define argument
  else if keyword = "undef".toList then .undefine argument
  else if keyword = "include".toList then .inclusion argument
  else if keyword = "ifdef".toList then .ifDefined argument
  else if keyword = "ifndef".toList then .ifNotDefined argument
  else if keyword = "if".toList then .ifValue argument
  else if keyword = "else".toList then .otherwise
  else if keyword = "endif".toList then .endIf
  else .other

/-- Read a logical line. -/
def Line.read (text : Text) : Line :=
  match Text.trimStart text with
  | '#' :: rest =>
      let body := Text.trimStart rest
      .directive <| Directive.ofKeyword (body.takeWhile (!isBlank ·))
        (Text.trim (body.dropWhile (!isBlank ·)))
  | _ => .ordinary text

/-- A macro definition as written after `#define`. -/
structure Definition where
  name : Text
  parameters : Option Text
  body : Text
deriving DecidableEq, Repr

/-- Whether a character can begin an identifier. -/
def isIdentifierStart (c : Char) : Bool := c.isAlpha || c == '_'

/-- A parameter list in parentheses at the very beginning of a text, and what
follows it. -/
def splitParameters (text : Text) : Option Text × Text :=
  match text with
  | '(' :: rest =>
      match rest.dropWhile (· ≠ ')') with
      | ')' :: body => (some ('(' :: rest.takeWhile (· ≠ ')') ++ [')']), body)
      | _ => (none, text)
  | _ => (none, text)

/-- Read the argument of `#define`: a name, a parameter list directly after it
or none, and the replacement text. -/
def Definition.read? (argument : Text) : Option Definition :=
  match argument with
  | first :: _ =>
      if isIdentifierStart first then
        let (parameters, body) := splitParameters (argument.dropWhile isIdentifierChar)
        some { name := argument.takeWhile isIdentifierChar, parameters, body := Text.trim body }
      else none
  | [] => none

/-- Read the argument of `#include`: a name between quotes or angle brackets. -/
def readInclusion? (argument : Text) : Option Text :=
  match argument with
  | opening :: rest =>
      let name := rest.takeWhile fun c => c ≠ '"' ∧ c ≠ '>'
      let after := rest.dropWhile fun c => c ≠ '"' ∧ c ≠ '>'
      if (opening = '"' ∨ opening = '<') ∧ !name.isEmpty ∧ !after.isEmpty then some name
      else none
  | [] => none

end AddonIndex.ClassConfig
