import AddonIndex.ClassConfig.Token
import AddonIndex.ClassConfig.Tree

/-!
# From tokens to classes and assignments

A text is a sequence of items, each ended by a semicolon, which may be missing
before a closing brace and at the end of the text. An item is a class, a
deletion, which leaves nothing, or an assignment. A value is an array in braces
or a run of tokens up to the end of the item; a run of a single literal is that
literal, any other run is the text of an expression.

Each function returns what it reads and the tokens that it leaves. Where it
calls itself, a bound on the number of tokens carries the recursion; each call
leaves at least one token behind, so a bound of the length of the list is never
reached. A failure keeps the tokens that begin with the offending one.
-/

namespace AddonIndex.ClassConfig

/-- The cause of a rejected token list. -/
inductive GrammarError
  | unterminatedString
  | expectedWord (what : Text) (found : Option Token)
  | unterminatedClass
  | unexpectedCloseBrace
  | unexpectedToken (found : Token)
  | expectedCloseBracket
  | expectedEquals (name : Text) (found : Option Token)
  | expectedSemicolon (found : Token)
  | unterminatedArray
  | expectedCommaOrCloseBrace
  | openBraceInValue
  | missingValue
deriving DecidableEq, Repr

namespace GrammarError

/-- The text of a cause. -/
def message : GrammarError → Text
  | unterminatedString => "unterminated string literal"
  | expectedWord what (some found) =>
      "expected ".toList ++ what ++ ", found ".toList ++ found.describe
  | expectedWord what none => "expected ".toList ++ what ++ ", found end of file".toList
  | unterminatedClass => "unterminated class body"
  | unexpectedCloseBrace => "unexpected '\x7d'"
  | unexpectedToken found => "unexpected token ".toList ++ found.describe
  | expectedCloseBracket => "expected ']'"
  | expectedEquals name (some found) =>
      "expected '=' after '".toList ++ name ++ "', found ".toList ++ found.describe
  | expectedEquals name none => "expected '=' after '".toList ++ name ++ "'".toList
  | expectedSemicolon found => "expected ';', found ".toList ++ found.describe
  | unterminatedArray => "unterminated array"
  | expectedCommaOrCloseBrace => "expected ',' or '\x7d' in array"
  | openBraceInValue => "unexpected '\x7b' in value"
  | missingValue => "missing value"

end GrammarError

/-- A failure: its cause, and the tokens from the offending one on. -/
structure Failure where
  cause : GrammarError
  rest : List Lexeme
deriving DecidableEq, Repr

/-- The kind of name that follows `class` and `delete`. -/
def className : Text := "class name"

/-- The kind of name that follows a colon. -/
def baseName : Text := "base class name"

/-- The kind of name that begins an assignment. -/
def propertyName : Text := "property name"

/-- Read a word. -/
def readWord (what : Text) : List Lexeme → Except Failure (Text × List Lexeme)
  | ⟨.word name, _⟩ :: rest => .ok (name, rest)
  | found :: rest => .error ⟨.expectedWord what (some found.token), found :: rest⟩
  | [] => .error ⟨.expectedWord what none, []⟩

/-- Read the end of an item. A closing brace ends an item and is left. -/
def readEnd : List Lexeme → Except Failure (Unit × List Lexeme)
  | [] => .ok ((), [])
  | found :: rest =>
      if found.token = .semicolon then .ok ((), rest)
      else if found.token = .closeBrace then .ok ((), found :: rest)
      else .error ⟨.expectedSemicolon found.token, found :: rest⟩

/-- Read the name of a class after a colon, if there is a colon. -/
def readBase : List Lexeme → Except Failure (Option Text × List Lexeme)
  | ⟨.colon, _⟩ :: rest => do
      let (base, rest) ← readWord baseName rest
      return (some base, rest)
  | lexemes => return (none, lexemes)

/-- Read the brackets that mark the name of an array, if there are any. -/
def readBrackets : List Lexeme → Except Failure (Bool × List Lexeme)
  | ⟨.openBracket, _⟩ :: ⟨.closeBracket, _⟩ :: rest => .ok (true, rest)
  | ⟨.openBracket, _⟩ :: rest => .error ⟨.expectedCloseBracket, rest⟩
  | lexemes => .ok (false, lexemes)

/-- Read the sign between the name and the value of an assignment. Only an array
can be appended to. -/
def readEquals (name : Text) (isArray : Bool) : List Lexeme → Except Failure (Bool × List Lexeme)
  | [] => .error ⟨.expectedEquals name none, []⟩
  | found :: rest =>
      if found.token = .equals then .ok (false, rest)
      else if found.token = .plusEquals ∧ isArray then .ok (true, rest)
      else .error ⟨.expectedEquals name (some found.token), found :: rest⟩

/-- Whether a token ends a run. A comma does so inside an array. -/
def endsRun (inArray : Bool) : Token → Bool
  | .semicolon => true
  | .closeBrace => true
  | .openBrace => true
  | .comma => inArray
  | _ => false

/-- The value of a run of tokens: a single literal is that literal, anything
else is the text of the tokens with single blanks between them. -/
def Value.ofRun : List Token → Value
  | [.string text] => .string text
  | [.number value] => .number value
  | run => .raw (Text.joinWith [' '] (run.map Token.render))

/-- Read a value that is no array. -/
def readRun (inArray : Bool) (lexemes : List Lexeme) : Except Failure (Value × List Lexeme) :=
  let run := lexemes.takeWhile fun lexeme => !endsRun inArray lexeme.token
  let rest := lexemes.dropWhile fun lexeme => !endsRun inArray lexeme.token
  if rest.head?.map Lexeme.token = some .openBrace then .error ⟨.openBraceInValue, rest⟩
  else if run.isEmpty then .error ⟨.missingValue, rest⟩
  else .ok (Value.ofRun (run.map Lexeme.token), rest)

/-- Read one item of an array. The items of an array inside are read as given. -/
def readElement (readItems : List Lexeme → Except Failure (List Value × List Lexeme))
    (first : Lexeme) (rest : List Lexeme) : Except Failure (Value × List Lexeme) :=
  if first.token = .openBrace then do
    let (items, rest) ← readItems rest
    return (.array items, rest)
  else readRun true (first :: rest)

/-- Read what follows an item of an array. Further items are read as given. -/
def readFollowing (readItems : List Lexeme → Except Failure (List Value × List Lexeme))
    (value : Value) : List Lexeme → Except Failure (List Value × List Lexeme)
  | ⟨.comma, _⟩ :: rest => do
      let (values, rest) ← readItems rest
      return (value :: values, rest)
  | ⟨.closeBrace, _⟩ :: rest => return ([value], rest)
  | lexemes => .error ⟨.expectedCommaOrCloseBrace, lexemes⟩

/-- Read the items of an array after its opening brace, and its closing brace. A
comma may follow the last item. -/
def readArrayItems : (bound : Nat) → List Lexeme → Except Failure (List Value × List Lexeme)
  | 0, _ => .error ⟨.unterminatedArray, []⟩
  | _ + 1, [] => .error ⟨.unterminatedArray, []⟩
  | bound + 1, first :: rest =>
      if first.token = .closeBrace then .ok ([], rest)
      else do
        let (value, rest) ← readElement (readArrayItems bound) first rest
        readFollowing (readArrayItems bound) value rest

/-- Read the value of an assignment. -/
def readValue : List Lexeme → Except Failure (Value × List Lexeme)
  | ⟨.openBrace, _⟩ :: rest => do
      let (items, rest) ← readArrayItems rest.length rest
      return (.array items, rest)
  | lexemes => readRun false lexemes

/-- Read an assignment with its end. -/
def readAssignment (lexemes : List Lexeme) : Except Failure (Assignment × List Lexeme) := do
  let (name, rest) ← readWord propertyName lexemes
  let (isArray, rest) ← readBrackets rest
  let (appends, rest) ← readEquals name isArray rest
  let (value, rest) ← readValue rest
  let (_, rest) ← readEnd rest
  return ({ name, isArray, appends, value }, rest)

/-- Read a deletion with its end, after its keyword. -/
def readDeletion (lexemes : List Lexeme) : Except Failure (Unit × List Lexeme) := do
  let (_, rest) ← readWord className lexemes
  readEnd rest

/-- A class in front of what follows it. -/
def Body.addClass (first : ConfigClass) (body : Body) : Body :=
  { body with classes := first :: body.classes }

/-- An assignment in front of what follows it. -/
def Body.addAssignment (first : Assignment) (body : Body) : Body :=
  { body with assignments := first :: body.assignments }

/-- The word that begins a class. -/
def classKeyword : Text := "class"

/-- The word that begins a deletion. -/
def deleteKeyword : Text := "delete"

/-- Read items up to the end of the text or, inside a class, up to its closing
brace, which is left. -/
def readItems : (bound : Nat) → (inClass : Bool) → List Lexeme → Except Failure (Body × List Lexeme)
  | 0, inClass, _ => if inClass then .error ⟨.unterminatedClass, []⟩ else .ok ({}, [])
  | _ + 1, inClass, [] => if inClass then .error ⟨.unterminatedClass, []⟩ else .ok ({}, [])
  | bound + 1, inClass, first :: rest =>
      match first.token with
      | .closeBrace =>
          if inClass then .ok ({}, first :: rest)
          else .error ⟨.unexpectedCloseBrace, first :: rest⟩
      | .semicolon => readItems bound inClass rest
      | .word keyword =>
          if keyword = classKeyword then do
            let (name, afterName) ← readWord className rest
            let (base, afterBase) ← readBase afterName
            let (inner, afterClass) ←
              (match afterBase with
              | ⟨.openBrace, _⟩ :: contents => do
                  let (inner, afterContents) ← readItems bound true contents
                  pure (inner, afterContents.drop 1)
              | _ => pure ({}, afterBase))
            let (_, next) ← readEnd afterClass
            let (others, after) ← readItems bound inClass next
            return (others.addClass { name, base, classes := inner.classes
                                      assignments := inner.assignments }, after)
          else if keyword = deleteKeyword then do
            let (_, next) ← readDeletion rest
            readItems bound inClass next
          else do
            let (assignment, next) ← readAssignment (first :: rest)
            let (others, after) ← readItems bound inClass next
            return (others.addAssignment assignment, after)
      | token => .error ⟨.unexpectedToken token, first :: rest⟩

/-- The classes and assignments of a whole text. -/
def readBody (lexemes : List Lexeme) : Except Failure Body :=
  (readItems lexemes.length false lexemes).map Prod.fst

/-- The line of a failure: that of the offending token, or that of the last
token if the text ends too early, or the first line of an empty text. -/
def Failure.line (failure : Failure) (lexemes : List Lexeme) : Nat :=
  match failure.rest.head?.or lexemes.getLast? with
  | some lexeme => lexeme.line
  | none => 1

end AddonIndex.ClassConfig
