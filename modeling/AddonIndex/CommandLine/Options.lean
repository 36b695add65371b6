import AddonIndex.Path

/-!
# Options of the command line

An option has a long name after two dashes and most have a letter after one.
Some take a value, which follows as the next argument, after an equals sign, or
directly after the letter. No option is given twice, and there are no arguments
besides options.
-/

namespace AddonIndex.CommandLine

/-- The options. -/
inductive OptionName
  | configDirectory
  | projectDirectory
  | logFile
  | toolsDirectory
  | debug
  | console
  | help
  | version
deriving DecidableEq, Repr

namespace OptionName

/-- All options, in the order in which the help shows them. -/
def all : List OptionName :=
  [configDirectory, projectDirectory, logFile, toolsDirectory, debug, console, help, version]

/-- The name after two dashes. -/
def long : OptionName → Text
  | configDirectory => "config-dir"
  | projectDirectory => "project-dir"
  | logFile => "log-file"
  | toolsDirectory => "tools-dir"
  | debug => "debug"
  | console => "console"
  | help => "help"
  | version => "version"

/-- The letter after one dash. -/
def letter? : OptionName → Option Char
  | configDirectory => some 'c'
  | projectDirectory => some 'p'
  | logFile => some 'l'
  | toolsDirectory => some 't'
  | debug => some 'd'
  | console => none
  | help => some 'h'
  | version => some 'V'

/-- How the value is called, if there is one. -/
def valueName? : OptionName → Option Text
  | configDirectory => some "CONFIG_DIR".toList
  | projectDirectory => some "PROJECT_DIR".toList
  | logFile => some "LOG_FILE".toList
  | toolsDirectory => some "TOOLS_DIR".toList
  | _ => none

/-- What the option is for. -/
def description : OptionName → Text
  | configDirectory => "Directory containing addons.yaml and settings.yaml [default: config]"
  | projectDirectory => "Project directory substituted for $PROJECT_DIR$ in addons.yaml"
  | logFile => "Write a plain-text log of the indexing run to this file"
  | toolsDirectory => "Arma 3 Tools directory (overrides settings.yaml)"
  | debug => "Enable debug logging"
  | console => "Also write application logs to the console"
  | help => "Print help"
  | version => "Print version"

/-- The option with its value, as messages show it. -/
def shown (name : OptionName) : Text :=
  "--".toList ++ name.long ++
    (match name.valueName? with
      | some value => " <".toList ++ value ++ ">".toList
      | none => [])

end OptionName

/-- What the options say. -/
structure Options where
  configDirectory : Path := "config"
  projectDirectory : Option Path := none
  logFile : Option Path := none
  toolsDirectory : Option Path := none
  debug : Bool := false
  console : Bool := false
deriving DecidableEq, Repr, Inhabited

/-- What is asked for. -/
inductive Request
  | run (options : Options)
  | help
  | version
deriving DecidableEq, Repr

/-- What is wrong with the arguments. -/
inductive ArgumentError
  | unexpected (argument : Text)
  | unexpectedValue (option : OptionName) (value : Text)
  | valueMissing (option : OptionName)
  | repeated (option : OptionName)
deriving DecidableEq, Repr

/-- The usage in one line. -/
def usage : Text := "Usage: addon-indexer [OPTIONS]"

namespace ArgumentError

/-- What is reported. -/
def message (e : ArgumentError) : Text :=
  let description : Text :=
    match e with
    | unexpected argument => "unexpected argument '".toList ++ argument ++ "' found".toList
    | unexpectedValue option value =>
        "unexpected value '".toList ++ value ++ "' for '".toList ++ option.shown ++
          "' found; no more were expected".toList
    | valueMissing option =>
        "a value is required for '".toList ++ option.shown ++ "' but none was supplied".toList
    | repeated option =>
        "the argument '".toList ++ option.shown ++ "' cannot be used multiple times".toList
  let hint : Text :=
    match e with
    | valueMissing _ => []
    | _ => usage ++ "\n\n".toList
  "error: ".toList ++ description ++ "\n\n".toList ++ hint ++
    "For more information, try '--help'.\n".toList

end ArgumentError

/-- The options that the letters of an argument stand for. A value takes up the
rest of the argument. -/
def readLetters : Text → Except ArgumentError (List (OptionName × Option Text))
  | [] => .ok []
  | c :: rest =>
      match OptionName.all.find? (·.letter? == some c) with
      | none => .error (.unexpected ['-', c])
      | some name =>
          if name.valueName?.isSome then
            match rest with
            | [] => .ok [(name, none)]
            | '=' :: value => .ok [(name, some value)]
            | value => .ok [(name, some value)]
          else (readLetters rest).map ((name, none) :: ·)

/-- The options of one argument, with the values that are part of it. -/
def readArgument (argument : Text) : Except ArgumentError (List (OptionName × Option Text)) :=
  match argument with
  | '-' :: '-' :: long =>
      let name := long.takeWhile (· != '=')
      match OptionName.all.find? (·.long == name), long.dropWhile (· != '=') with
      | none, _ => .error (.unexpected ("--".toList ++ name))
      | some option, [] => .ok [(option, none)]
      | some option, _ :: value =>
          if option.valueName?.isSome then .ok [(option, some value)]
          else .error (.unexpectedValue option value)
  | '-' :: c :: letters => readLetters (c :: letters)
  | _ => .error (.unexpected argument)

/-- Whether an argument can be the value of the option before it. -/
def isValue (argument : Text) : Bool :=
  argument == ['-'] || argument.head? != some '-'

/-- Set an option. -/
def Options.set (options : Options) (name : OptionName) (value : Text) : Options :=
  match name with
  | .configDirectory => { options with configDirectory := ⟨value⟩ }
  | .projectDirectory => { options with projectDirectory := some ⟨value⟩ }
  | .logFile => { options with logFile := some ⟨value⟩ }
  | .toolsDirectory => { options with toolsDirectory := some ⟨value⟩ }
  | .debug => { options with debug := true }
  | .console => { options with console := true }
  | .help | .version => options

/-- What has been read of the arguments. -/
structure Arguments where
  given : List OptionName := []
  options : Options := {}
  /-- The option whose value is expected next. -/
  pending : Option OptionName := none
  /-- What was asked for instead of a run. -/
  answer : Option Request := none

namespace Arguments

/-- Take one option. Nothing counts after a request for help or for the version. -/
def take (arguments : Arguments) (option : OptionName × Option Text) :
    Except ArgumentError Arguments :=
  let (name, value) := option
  if arguments.answer.isSome then .ok arguments
  else if name = .help then .ok { arguments with answer := some .help }
  else if name = .version then .ok { arguments with answer := some .version }
  else if arguments.given.contains name then .error (.repeated name)
  else
    let after := { arguments with given := name :: arguments.given }
    match value with
    | some value => .ok { after with options := after.options.set name value }
    | none =>
        if name.valueName?.isSome then .ok { after with pending := some name }
        else .ok { after with options := after.options.set name [] }

/-- The request that the arguments stand for. -/
def finish (arguments : Arguments) : Except ArgumentError Request :=
  match arguments.answer, arguments.pending with
  | some request, _ => .ok request
  | none, some option => .error (.valueMissing option)
  | none, none => .ok (.run arguments.options)

end Arguments

/-- Read the rest of the arguments. -/
def readFrom (arguments : Arguments) : List Text → Except ArgumentError Request
  | [] => arguments.finish
  | argument :: rest =>
      if arguments.answer.isSome then arguments.finish
      else
        match arguments.pending with
        | some option =>
            if isValue argument then
              readFrom
                { arguments with
                  pending := none, options := arguments.options.set option argument } rest
            else .error (.valueMissing option)
        | none =>
            if argument = ['-', '-'] then
              match rest with
              | [] => arguments.finish
              | extra :: _ => .error (.unexpected extra)
            else
              match (readArgument argument).bind (·.foldlM Arguments.take arguments) with
              | .ok after => readFrom after rest
              | .error e => .error e

/-- Read the arguments of the command line. -/
def readArguments (arguments : List Text) : Except ArgumentError Request := readFrom {} arguments

/-- The help. -/
def helpText : Text :=
  let leadOf (name : OptionName) : Text :=
    (match name.letter? with
      | some c => "  -".toList ++ [c] ++ ", ".toList
      | none => "      ".toList) ++ name.shown
  let width := (OptionName.all.map fun name => (leadOf name).length).foldl max 0
  "Extracts, converts and parses game addons into a reference cache\n\n".toList ++ usage ++
    "\n\nOptions:\n".toList ++
    OptionName.all.flatMap fun name =>
      let lead := leadOf name
      lead ++ List.replicate (width + 2 - lead.length) ' ' ++ name.description ++ ['\n']

end AddonIndex.CommandLine
