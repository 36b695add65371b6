import AddonIndex.Text.Basic

/-!
# Commands of scripts

A script is a list of commands. A command is a list of words, or a list of
commands that is repeated for each of some words. A word is put together from
texts, parameters and the list of all arguments.
-/

namespace AddonIndex.Script

/-- A part of a word. -/
inductive Part
  | text (text : Text)
  /-- A parameter by its name: an argument by its number, or a variable. -/
  | parameter (name : Text)
  /-- All arguments. -/
  | arguments
deriving DecidableEq, Repr

/-- A word. -/
abbrev Word := List Part

/-- A word that is a plain text. -/
def plainText? : Word → Option Text
  | [.text text] => some text
  | _ => none

/-- A command. -/
inductive Command
  /-- A name and its arguments. The flag tells whether the output goes to the error
  channel. -/
  | simple (words : List Word) (toErrors : Bool)
  /-- Commands that are repeated with a variable set to each of some words. -/
  | each (variableName : Text) (values : List Word) (body : List Command)
deriving Repr

end AddonIndex.Script
