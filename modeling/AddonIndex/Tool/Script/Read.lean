import AddonIndex.Tool.Script.Command

/-!
# Reading scripts

A script is cut into words, line ends and redirections first, and these are then
put together to commands. Single quotes keep everything; between double quotes
parameters are still recognised.
-/

namespace AddonIndex.Script

/-- What a script is cut into. -/
inductive Token
  | word (word : Word)
  /-- The end of a command. -/
  | separator
  /-- The redirection of the output to the error channel. -/
  | toErrors
deriving DecidableEq, Repr

/-- The quotes around a place in a script. -/
inductive Quoting
  | none
  | single
  | double
  /-- A comment up to the end of the line. -/
  | comment
deriving DecidableEq, Repr

/-- What has been read of a word. -/
structure Lexer where
  quoting : Quoting := .none
  /-- The parts of the current word, if one has begun. -/
  word : Option Word := none
  /-- The name after a dollar sign, as far as it was read. -/
  name : Option Text := none
  /-- Whether a backslash precedes. -/
  escaped : Bool := false
deriving Repr

namespace Lexer

/-- Add a part to the current word. -/
def add (lexer : Lexer) (part : Part) : Lexer :=
  { lexer with word := some (lexer.word.getD [] ++ [part]) }

/-- Add a character to the current word. -/
def addChar (lexer : Lexer) (c : Char) : Lexer :=
  let parts := lexer.word.getD []
  match parts.getLast? with
  | some (.text text) =>
      { lexer with word := some (parts.dropLast ++ [.text (text ++ [c])]) }
  | _ => lexer.add (.text [c])

/-- The end of the current word. -/
def endWord (lexer : Lexer) : Lexer × List Token :=
  ({ lexer with word := none }, lexer.word.toList.map .word)

/-- The end of a name after a dollar sign. -/
def endName (lexer : Lexer) : Lexer :=
  match lexer.name with
  | none => lexer
  | some [] => { lexer with name := none }.addChar '$'
  | some name => { lexer with name := none }.add (.parameter name)

/-- Go on with a character that belongs to no name. -/
def step (lexer : Lexer) (c : Char) : Lexer × List Token :=
  if lexer.escaped then
    ((if c = '\n' then { lexer with escaped := false }
      else { lexer with escaped := false }.addChar c), [])
  else
    match lexer.quoting with
    | .comment => if c = '\n' then ({ lexer with quoting := .none }, [.separator]) else (lexer, [])
    | .single => if c = '\'' then ({ lexer with quoting := .none }, []) else (lexer.addChar c, [])
    | .double =>
        if c = '"' then ({ lexer with quoting := .none }, [])
        else if c = '$' then ({ lexer with name := some [] }, [])
        else if c = '\\' then ({ lexer with escaped := true }, [])
        else (lexer.addChar c, [])
    | .none =>
        if c = '\'' then ({ lexer with quoting := .single, word := some (lexer.word.getD []) }, [])
        else if c = '"' then
          ({ lexer with quoting := .double, word := some (lexer.word.getD []) }, [])
        else if c = '$' then ({ lexer with name := some [] }, [])
        else if c = '\\' then ({ lexer with escaped := true }, [])
        else if c = '#' ∧ lexer.word.isNone then ({ lexer with quoting := .comment }, [])
        else if c = ' ' ∨ c = '\t' then lexer.endWord
        else if c = '\n' ∨ c = ';' then
          let (after, tokens) := lexer.endWord
          (after, tokens ++ [.separator])
        else (lexer.addChar c, [])

/-- Go on with a character. -/
def next (lexer : Lexer) (c : Char) : Lexer × List Token :=
  match lexer.name with
  | none => lexer.step c
  | some [] =>
      if c = '@' ∨ c = '*' then ({ lexer with name := none }.add .arguments, [])
      else if c = '#' ∨ c = '$' ∨ c = '?' ∨ c.isDigit then
        ({ lexer with name := none }.add (.parameter [c]), [])
      else if c.isAlpha ∨ c = '_' then ({ lexer with name := some [c] }, [])
      else lexer.endName.step c
  | some name =>
      if c.isAlphanum ∨ c = '_' then ({ lexer with name := some (name ++ [c]) }, [])
      else lexer.endName.step c

end Lexer

/-- The tokens of the rest of a script. -/
def tokensFrom (lexer : Lexer) : Text → List Token
  | [] => lexer.endName.endWord.2 ++ [.separator]
  | '>' :: '&' :: '2' :: rest =>
      if lexer.quoting = .none ∧ !lexer.escaped then
        let (after, tokens) := lexer.endName.endWord
        tokens ++ .toErrors :: tokensFrom after rest
      else
        let (after, tokens) := lexer.next '>'
        tokens ++ tokensFrom after ('&' :: '2' :: rest)
  | c :: rest =>
      let (after, tokens) := lexer.next c
      tokens ++ tokensFrom after rest

/-- The tokens of a script. -/
def tokens (script : Text) : List Token := tokensFrom {} script

/-- Whether a token is a word that is a given text. -/
def isKeyword (keyword : Text) : Token → Bool
  | .word word => plainText? word == some keyword
  | _ => false

/-- The words of a command up to a separator, and what follows. -/
def wordsOf (tokens : List Token) : List Word × List Token :=
  let line := tokens.takeWhile (· != .separator)
  (line.filterMap fun
    | .word word => some word
    | _ => none, tokens.dropWhile (· != .separator))

/-- The commands up to the end of a repetition or of the script, and what follows. -/
def commandsFrom : Nat → List Token → Option (List Command × List Token)
  | 0, _ => none
  | fuel + 1, tokens =>
      match tokens.dropWhile (· == .separator) with
      | [] => some ([], [])
      | token :: rest => do
          if isKeyword "done" token then return ([], token :: rest)
          else if isKeyword "for" token then
            let (header, rest) := wordsOf rest
            match header with
            | name :: keyword :: values =>
                let name ← plainText? name
                if plainText? keyword ≠ some ['i', 'n'] then none
                else
                  match rest.dropWhile (· == .separator) with
                  | opening :: rest =>
                      if !isKeyword "do" opening then none
                      else
                        let (body, rest) ← commandsFrom fuel rest
                        match rest with
                        | _closing :: rest =>
                            let (others, rest) ← commandsFrom fuel rest
                            return (.each name values body :: others, rest)
                        | [] => none
                  | [] => none
            | _ => none
          else
            let line := (token :: rest).takeWhile (· != .separator)
            let (words, rest) := wordsOf (token :: rest)
            let (others, rest) ← commandsFrom fuel rest
            return (.simple words (line.contains .toErrors) :: others, rest)

/-- The commands of a script, if it is well formed. -/
def parse? (script : Text) : Option (List Command) :=
  let tokens := tokens script
  match commandsFrom (tokens.length + 1) tokens with
  | some (commands, []) => some commands
  | _ => none

end AddonIndex.Script
