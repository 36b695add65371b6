import AddonIndex.FileTree.Operation
import AddonIndex.Tool.Program
import AddonIndex.Tool.Script.Read

/-!
# Running scripts

A script is a program whose file names a shell in its first line. The commands
are carried out one after another on the files, until the script exits, kills
itself, or its time is over. Only sleeping takes time.
-/

namespace AddonIndex.Script

/-- Why a script ended before its last command. -/
inductive Ending
  | exited (status : Nat)
  | killed
  | stopped
deriving DecidableEq, Repr

/-- The state of a script. -/
structure Shell where
  tree : FileTree
  /-- The path of the script. -/
  script : Path
  arguments : List Text
  limit : Duration
  bindings : List (Text × Text) := []
  output : ByteArray := ByteArray.empty
  complaint : ByteArray := ByteArray.empty
  /-- The exit status of the last command. -/
  status : Nat := 0
  elapsed : Nat := 0
  ending : Option Ending := none

/-- The number of the running script. -/
def ownNumber : Text := "1"

namespace Shell

/-- The value of a parameter. -/
def parameter (shell : Shell) (name : Text) : Text :=
  if name = ['#'] then Text.ofNat shell.arguments.length
  else if name = ['$'] then ownNumber
  else if name = ['?'] then Text.ofNat shell.status
  else if name = ['0'] then shell.script.text
  else
    match name with
    | [c] =>
        if c.isDigit then (shell.arguments[c.toNat - '0'.toNat - 1]?).getD []
        else (shell.bindings.lookup name).getD []
    | _ => (shell.bindings.lookup name).getD []

/-- The texts that a word stands for: one, unless the word is the list of all
arguments. -/
def expand (shell : Shell) (word : Word) : List Text :=
  if word = [.arguments] then shell.arguments
  else
    [word.flatMap fun
      | .text text => text
      | .parameter name => shell.parameter name
      | .arguments => Text.joinWith [' '] shell.arguments]

/-- Print bytes on one of the two channels. -/
def print (shell : Shell) (toErrors : Bool) (bytes : ByteArray) : Shell :=
  if toErrors then { shell with complaint := shell.complaint ++ bytes }
  else { shell with output := shell.output ++ bytes }

/-- End a command with a status. -/
def finish (shell : Shell) (status : Nat) : Shell := { shell with status }

/-- End a command with a complaint. -/
def complain (shell : Shell) (status : Nat) (message : Text) : Shell :=
  (shell.print true (Text.encode (message ++ ['\n']))).finish status

/-- Carry out an operation on the files. The complaint about a failure is given. -/
def perform (shell : Shell) (operation : FileOp Unit) (words : FileError → Text) : Shell :=
  match operation.run shell.tree with
  | (tree, .ok ()) => { shell with tree }.finish 0
  | (tree, .error e) => { shell with tree }.complain 1 (words e)

/-- Let time pass. -/
def pass (shell : Shell) (time : Nat) : Shell :=
  let after := { shell with elapsed := shell.elapsed + time }
  if shell.limit.nanoseconds ≤ after.elapsed then { after with ending := some .stopped } else after

end Shell

/-- A text between single quotes, as complaints show names. -/
def quoted (text : Text) : Text := '\'' :: text ++ ['\'']

/-- The description of a failure, without its number. -/
def description (e : FileError) : Text := e.message.takeWhile (· != '(') |> Text.dropEndWhile (· == ' ')

/-- The bytes of a format. A backslash and up to three octal digits stand for a
byte. -/
def formatBytes : Text → List UInt8
  | [] => []
  | '\\' :: a :: b :: c :: rest =>
      if [a, b, c].all Char.isDigit then
        UInt8.ofNat (64 * (a.toNat - 48) + 8 * (b.toNat - 48) + (c.toNat - 48)) :: formatBytes rest
      else if a = 'n' then 10 :: formatBytes (b :: c :: rest)
      else if a = 't' then 9 :: formatBytes (b :: c :: rest)
      else if a = '\\' then 92 :: formatBytes (b :: c :: rest)
      else 92 :: formatBytes (a :: b :: c :: rest)
  | '\\' :: 'n' :: rest => 10 :: formatBytes rest
  | '\\' :: 't' :: rest => 9 :: formatBytes rest
  | '\\' :: '\\' :: rest => 92 :: formatBytes rest
  | c :: rest => (Text.encode [c]).toList ++ formatBytes rest

/-- Copy a file. A target that is a directory receives a file of the same name. -/
def copy (source target : Path) (shell : Shell) : Shell :=
  let target :=
    if shell.tree.isDirectory target then target.join (source.fileName?.getD []) else target
  match shell.tree.find source with
  | .error e =>
      shell.complain 1 ("cp: cannot stat ".toList ++ quoted source.text ++ ": ".toList ++ description e)
  | .ok (_, .directory) =>
      shell.complain 1 ("cp: -r not specified; omitting directory ".toList ++ quoted source.text)
  | .ok (place, .file _ _) =>
      if (shell.tree.find target).toOption.any fun found => found.1 == place then
        shell.complain 1 ("cp: ".toList ++ quoted source.text ++ " and ".toList ++
          quoted target.text ++ " are the same file".toList)
      else
        shell.perform (FileOp.copyFile source target) fun e =>
          "cp: cannot create regular file ".toList ++ quoted target.text ++ ": ".toList ++ description e

/-- Print files one after another. -/
def concatenate (toErrors : Bool) : List Text → Shell → Shell
  | [], shell => shell.finish 0
  | name :: rest, shell =>
      match shell.tree.readBytes ⟨name⟩ with
      | .ok bytes => concatenate toErrors rest (shell.print toErrors bytes)
      | .error e =>
          (concatenate toErrors rest
            (shell.complain 1 ("cat: ".toList ++ name ++ ": ".toList ++ description e))).finish 1

/-- Carry out a command. -/
def call (words : List Text) (toErrors : Bool) (shell : Shell) : Shell :=
  match words with
  | [] => shell
  | name :: arguments =>
      match Text.toString name with
      | "echo" =>
          match arguments with
          | ['-', 'n'] :: shown =>
              (shell.print toErrors (Text.encode (Text.joinWith [' '] shown))).finish 0
          | shown =>
              (shell.print toErrors (Text.encode (Text.joinWith [' '] shown ++ ['\n']))).finish 0
      | "printf" =>
          (shell.print toErrors ⟨(formatBytes (arguments.headD [])).toArray⟩).finish 0
      | "exit" =>
          let status :=
            match arguments with
            | code :: _ => (Text.toString code).toNat?.getD 2 % 256
            | [] => shell.status
          { shell.finish status with ending := some (.exited status) }
      | "kill" =>
          if arguments.contains ownNumber then { shell with ending := some .killed }
          else shell.finish 1
      | "sleep" =>
          let seconds := (Text.toString (arguments.headD [])).toNat?.getD 0
          (shell.pass (Duration.ofSeconds seconds).nanoseconds).finish 0
      | "mkdir" =>
          match arguments.filter (·.head? != some '-') with
          | directory :: _ =>
              let operation :=
                if arguments.contains ['-', 'p'] then FileOp.makeDirectories ⟨directory⟩
                else FileOp.makeDirectory ⟨directory⟩
              shell.perform operation fun e =>
                "mkdir: cannot create directory ".toList ++ quoted directory ++ ": ".toList ++
                  description e
          | [] => shell.complain 1 "mkdir: missing operand"
      | "cp" =>
          match arguments with
          | [source, target] => copy ⟨source⟩ ⟨target⟩ shell
          | _ => shell.complain 1 "cp: missing file operand"
      | "cat" => concatenate toErrors arguments shell
      | "true" | ":" => shell.finish 0
      | "false" => shell.finish 1
      | _ => shell.complain 127 (shell.script.text ++ ": ".toList ++ name ++ ": not found".toList)

/-- Carry out a command after its words are expanded. A script that replaces itself
by a command ends with it. -/
def callExpanded (words : List Word) (toErrors : Bool) (shell : Shell) : Shell :=
  match words.flatMap shell.expand with
  | ['e', 'x', 'e', 'c'] :: command =>
      let after := call command toErrors shell
      if after.ending.isSome ∨ command.isEmpty then after
      else { after with ending := some (.exited after.status) }
  | command => call command toErrors shell

mutual

/-- Run a command, unless the script has ended. -/
def runCommand : Command → Shell → Shell
  | .simple words toErrors, shell =>
      if shell.ending.isSome then shell else callExpanded words toErrors shell
  | .each name values body, shell =>
      (values.flatMap shell.expand).foldl
        (fun shell value =>
          runCommands body { shell with bindings := (name, value) :: shell.bindings })
        shell

/-- Run commands one after another. -/
def runCommands : List Command → Shell → Shell
  | [], shell => shell
  | command :: rest, shell => runCommands rest (runCommand command shell)

end

/-- The shells that can be named in the first line of a script. -/
def shells : List Text := ["/bin/sh", "/bin/bash", "/bin/dash", "/usr/bin/sh", "/usr/bin/bash"]

/-- The program that the first line of a file names, if it names one. -/
def interpreter? (content : ByteArray) : Option Text :=
  match Text.decodeLossy content with
  | '#' :: '!' :: rest =>
      some ((rest.takeWhile (· != '\n')).dropWhile (· == ' ') |>.takeWhile (· != ' '))
  | _ => none

/-- Run the text of a script. -/
def run (text : Text) (script : Path) (arguments : List Text) (limit : Duration)
    (tree : FileTree) : FileTree × ProgramEnd :=
  let start : Shell := { tree, script, arguments, limit }
  match parse? text with
  | none =>
      let shell := start.complain 2 (script.text ++ ": Syntax error".toList)
      (tree, .exited 2 shell.output shell.complaint)
  | some commands =>
      let shell := runCommands commands (start.pass 0)
      (shell.tree,
        match shell.ending with
        | none => .exited shell.status shell.output shell.complaint
        | some (.exited status) => .exited status shell.output shell.complaint
        | some .killed => .exited (-1) shell.output shell.complaint
        | some .stopped => .stopped)

/-- Run the script that a program is. A program without a slash in its name is not
looked for, and one that is no script cannot be run. -/
def launch : Launcher := fun program arguments limit tree =>
  if !program.text.contains '/' then (tree, .error .notFound)
  else
    match tree.find program with
    | .error cause => (tree, .error cause)
    | .ok (_, .directory) => (tree, .error .permissionDenied)
    | .ok (_, .file content executable) =>
        if !executable then (tree, .error .permissionDenied)
        else
          match interpreter? content with
          | none => (tree, .error .unrunnable)
          | some interpreter =>
              if shells.contains interpreter then
                let (after, ending) := run (Text.decodeLossy content) program arguments limit tree
                (after, .ok ending)
              else (tree, .error .notFound)

end AddonIndex.Script
