import AddonIndex.ClassConfig.Comment
import AddonIndex.ClassConfig.Directive
import AddonIndex.ClassConfig.LogicalLine
import AddonIndex.ClassConfig.Macro
import AddonIndex.ClassConfig.Parse
import AddonIndex.FileTree.Resolve

/-!
# Preprocessing

Directives are carried out line by line. Each logical line of a file gives one
line of output: an active ordinary line with its macros expanded, a blank line
for anything else. The output of an included file precedes the blank line of its
directive.

Two maps are kept. The macro table holds what is defined at the moment; the
record of definitions keeps every definition that was made, also after the macro
is undefined again.
-/

namespace AddonIndex.ClassConfig

/-- The cause of a failed directive. -/
inductive DirectiveError
  | malformedDefinition (argument : Text)
  | malformedInclusion (argument : Text)
  | inclusionTooDeep
  | inclusionNotFound (name : Text)
  | elseWithoutIf
  | duplicateElse
  | endWithoutIf
  | unterminatedConditional
deriving DecidableEq, Repr

/-- The largest number of files that include one another in a chain, the first
one not counted. -/
def maxInclusionDepth : Nat := 16

namespace DirectiveError

/-- The text of a cause. -/
def message : DirectiveError → Text
  | malformedDefinition argument => "malformed #define '".toList ++ argument ++ ['\'']
  | malformedInclusion argument => "malformed #include '".toList ++ argument ++ ['\'']
  | inclusionTooDeep => "#include nested deeper than ".toList ++ Text.ofNat maxInclusionDepth
  | inclusionNotFound name => "included file '".toList ++ name ++ "' not found".toList
  | elseWithoutIf => "#else without #if"
  | duplicateElse => "duplicate #else"
  | endWithoutIf => "#endif without #if"
  | unterminatedConditional => "unterminated conditional block"

end DirectiveError

/-- Why a config cannot be read. -/
inductive ConfigError
  | unreadable (path : Path) (cause : FileError)
  | grammar (path : Path) (line : Nat) (cause : GrammarError)
  | directive (path : Path) (line : Nat) (cause : DirectiveError)
deriving DecidableEq, Repr

namespace ConfigError

/-- The message of an error, without its cause if that is a failed reading. -/
def message : ConfigError → Text
  | unreadable path _ => "Failed to read ".toList ++ path.text
  | grammar path line cause =>
      path.text ++ [':'] ++ Text.ofNat line ++ ": ".toList ++ cause.message
  | directive path line cause =>
      path.text ++ [':'] ++ Text.ofNat line ++ ": preprocessor: ".toList ++ cause.message

/-- The message of an error with its cause. -/
def fullMessage : ConfigError → Text
  | unreadable path cause => (unreadable path cause).message ++ ": ".toList ++ cause.message
  | e => e.message

end ConfigError

/-- A conditional that is not ended yet. -/
structure OpenConditional where
  /-- Whether the lines around it are active. -/
  outerActive : Bool
  /-- Whether the current branch is the chosen one. -/
  branchActive : Bool
  elseSeen : Bool
deriving DecidableEq, Repr

/-- Whether the lines at this point are active, given the open conditionals with
the innermost one first. -/
def isActive : List OpenConditional → Bool
  | [] => true
  | innermost :: _ => innermost.outerActive && innermost.branchActive

/-- What preprocessing carries from line to line and from file to file. -/
structure Definitions where
  /-- The macros that are defined at the moment. -/
  macros : MacroTable := []
  /-- Every definition made, with its latest replacement text. -/
  recorded : OrderedMap Text := []
deriving Inhabited, Repr

namespace Definitions

/-- Define a macro. -/
def define (definitions : Definitions) (definition : Definition) : Definitions :=
  { macros := definitions.macros.insert definition.name
      { parameters := definition.parameters, body := definition.body }
    recorded := definitions.recorded.insert definition.name definition.body }

/-- Undefine a macro. -/
def undefine (definitions : Definitions) (name : Text) : Definitions :=
  { definitions with macros := definitions.macros.remove name }

end Definitions

/-- Where the file that an inclusion names is looked for: beside the including file first, then in
the given directory. Backslashes separate names too, and leading slashes are ignored. -/
def inclusionCandidates (file includeDirectory : Path) (name : Text) : List Path :=
  let relative := (name.map fun c => if c = '\\' then '/' else c).dropWhile (· == '/')
  (file.parent?.map (·.join relative)).toList ++ [includeDirectory.join relative]

/-- The file that an inclusion names: the first candidate that is a file. -/
def resolveInclusion (tree : FileTree) (file includeDirectory : Path) (name : Text) :
    Option Path :=
  (inclusionCandidates file includeDirectory name).find? tree.isFile

/-- How a file is preprocessed that another one includes: the output lines and
the definitions after it. -/
abbrev Includer := Path → Definitions → Except ConfigError (List Text × Definitions)

/-- What one logical line does: its output, the open conditionals and the
definitions after it. -/
def lineEffect (tree : FileTree) (includeDirectory : Path) (includer : Option Includer)
    (file : Path) (number : Nat) (opened : List OpenConditional) (definitions : Definitions)
    (line : Text) : Except ConfigError (List Text × List OpenConditional × Definitions) :=
  let active := isActive opened
  let fail (cause : DirectiveError) := .error (.directive file number cause)
  let openWith (chosen : Bool) := .ok ([[]], ⟨active, chosen, false⟩ :: opened, definitions)
  match Line.read line with
  | .ordinary text =>
      .ok ([if active then expand definitions.macros text else []], opened, definitions)
  | .directive (.define argument) =>
      if active then
        match Definition.read? argument with
        | some definition => .ok ([[]], opened, definitions.define definition)
        | none => fail (.malformedDefinition argument)
      else .ok ([[]], opened, definitions)
  | .directive (.undefine name) =>
      .ok ([[]], opened, if active then definitions.undefine name else definitions)
  | .directive (.inclusion argument) =>
      if active then
        match readInclusion? argument with
        | none => fail (.malformedInclusion argument)
        | some name =>
            match includer with
            | none => fail .inclusionTooDeep
            | some readIncluded =>
                match resolveInclusion tree file includeDirectory name with
                | none => fail (.inclusionNotFound name)
                | some target =>
                    match readIncluded target definitions with
                    | .error e => .error e
                    | .ok (output, after) => .ok (output ++ [[]], opened, after)
      else .ok ([[]], opened, definitions)
  | .directive (.ifDefined name) => openWith (definitions.macros.has name)
  | .directive (.ifNotDefined name) => openWith (!definitions.macros.has name)
  | .directive (.ifValue condition) => openWith (condition ≠ ['0'])
  | .directive .otherwise =>
      match opened with
      | [] => fail .elseWithoutIf
      | innermost :: outer =>
          if innermost.elseSeen then fail .duplicateElse
          else
            .ok ([[]],
              { innermost with branchActive := !innermost.branchActive, elseSeen := true } :: outer,
              definitions)
  | .directive .endIf =>
      match opened with
      | [] => fail .endWithoutIf
      | _ :: outer => .ok ([[]], outer, definitions)
  | .directive .other => .ok ([[]], opened, definitions)

/-- Preprocess logical lines, of which the first one has the given number. -/
def preprocessLines (tree : FileTree) (includeDirectory : Path) (includer : Option Includer)
    (file : Path) : (number : Nat) → List OpenConditional → Definitions → List Text →
    Except ConfigError (List Text × Definitions)
  | number, opened, definitions, [] =>
      if opened.isEmpty then .ok ([], definitions)
      else .error (.directive file (number - 1) .unterminatedConditional)
  | number, opened, definitions, line :: rest =>
      match lineEffect tree includeDirectory includer file number opened definitions line with
      | .error e => .error e
      | .ok (output, opened, definitions) =>
          match preprocessLines tree includeDirectory includer file (number + 1) opened
              definitions rest with
          | .error e => .error e
          | .ok (outputs, definitions) => .ok (output ++ outputs, definitions)

/-- The logical lines of a file. -/
def sourceLines (tree : FileTree) (file : Path) : Except ConfigError (List Text) :=
  match tree.readText file with
  | .ok source => .ok (logicalLines (stripComments source))
  | .error cause => .error (.unreadable file cause)

/-- Preprocess a file that may include others to the given depth. -/
def preprocessFile (tree : FileTree) (includeDirectory : Path) : (depth : Nat) → Includer
  | 0, file, definitions => do
      preprocessLines tree includeDirectory none file 1 [] definitions (← sourceLines tree file)
  | depth + 1, file, definitions => do
      preprocessLines tree includeDirectory (some (preprocessFile tree includeDirectory depth))
        file 1 [] definitions (← sourceLines tree file)

/-- Preprocess a file: its output lines and the definitions made in it. -/
def preprocess (tree : FileTree) (file includeDirectory : Path) :
    Except ConfigError (List Text × Definitions) :=
  preprocessFile tree includeDirectory maxInclusionDepth file {}

/-- Lines as one text, each ended by a line feed. -/
def endLines (lines : List Text) : Text := lines.flatMap (· ++ ['\n'])

end AddonIndex.ClassConfig
