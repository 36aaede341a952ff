import ScriptEngine.Config
import ScriptEngine.Native.Library
import ScriptEngine.Report.Wire

/-!
# The command line

The command renders problem reports, lists the standard natives and shows the configuration in
force. What it does is a function of its arguments and the files it can see.
-/

namespace ScriptEngine
namespace CommandLine

/-- What a command writes and how it ends. -/
structure Result where
  status : Nat
  output : Text
  errors : Text
  deriving DecidableEq, Inhabited

namespace Result

/-- Success with some output. -/
def success (output : Text) : Result :=
  ⟨0, output, Text.empty⟩

/-- Something went wrong. -/
def failure (message : Text) : Result :=
  ⟨1, Text.empty, "Error: " ++ message ++ "\n"⟩

/-- The command was called in a wrong way. -/
def misuse (message : Text) : Result :=
  ⟨2, Text.empty, message⟩

end Result

/-- How the command is used. -/
def usage : Text :=
  "Usage: plang [options] <command> [args...]\n\nCommands:\n" ++
  "  report <file>   Render a CBOR problem report\n" ++
  "  natives         List the standard natives\n" ++
  "  config          Show the effective configuration\n" ++
  "\nOptions:\n  -C string\n    \tDirectory to search for plang.toml (default \".\")\n"

/-!
## Options
-/

/-- What the options say: where to look for the settings file, and the arguments behind them. -/
structure Invocation where
  dir : Text
  args : List Text
  deriving DecidableEq, Inhabited

/-- Why the arguments are not carried out. -/
inductive Objection where
  | help
  | badOption (argument : Text)
  | unknownOption (name : Text)
  | missingArgument (name : Text)
  deriving DecidableEq

namespace Objection

/-- What is said and how the command ends. -/
def result : Objection → Result
  | help => ⟨0, Text.empty, usage⟩
  | badOption a => .misuse ("bad flag syntax: " ++ a ++ "\n" ++ usage)
  | unknownOption n => .misuse ("flag provided but not defined: -" ++ n ++ "\n" ++ usage)
  | missingArgument n => .misuse ("flag needs an argument: -" ++ n ++ "\n" ++ usage)

end Objection

/-- The text behind one or two dashes, if this is an option. A single dash is not one. -/
def optionBody? (arg : Text) : Option Text :=
  if arg.size < 2 || !arg.startsWith "-" then none
  else if arg.startsWith "--" then some (arg.drop 2)
  else some (arg.drop 1)

/-- Name and value of an option, cut at its first equals sign behind the first character. -/
def splitOption (body : Text) : Text × Option Text :=
  match (body.drop 1).find? "=" with
  | some i => (body.take (i + 1), some (body.drop (i + 2)))
  | none => (body, none)

/-- Whether an option's text is no name at all. -/
def isBadBody (body : Text) : Bool :=
  body.isEmpty || body.startsWith "-" || body.startsWith "="

/-- Reads the options in front of the arguments. Two dashes alone end them. -/
def readOptions (dir : Text) : List Text → Except Objection Invocation
  | [] => .ok ⟨dir, []⟩
  | arg :: rest =>
    match optionBody? arg with
    | none => .ok ⟨dir, arg :: rest⟩
    | some body =>
      if arg == Text.ofString "--" then .ok ⟨dir, rest⟩
      else if isBadBody body then .error (.badOption arg)
      else
        let (name, value) := splitOption body
        if name == Text.ofString "C" then
          match value, rest with
          | some v, rest => readOptions v rest
          | none, v :: rest => readOptions v rest
          | none, [] => .error (.missingArgument name)
        else if name == Text.ofString "help" || name == Text.ofString "h" then .error .help
        else .error (.unknownOption name)

/-!
## Commands
-/

/-- Renders the report in a file. -/
def showReport (files : FileTree) (workDir path : Text) : Result :=
  match files.read workDir path with
  | .error e => .failure (e.message path)
  | .ok contents =>
    match Report.decode? contents with
    | none => .failure "report: unmarshal"
    | some r =>
      .success ("run " ++ r.runIdText ++ " (" ++ r.stage.name ++ ")\n" ++ r.render)

/-- The keys of the standard natives, one a line. -/
def listNatives : Result :=
  .success (Text.concat ((Text.sort Library.standard.bindings.keys).map (· ++ "\n")))

def yesNo (b : Bool) : Text :=
  if b then "true" else "false"

/-- Shows a configuration. -/
def showConfig (c : Config) : Result :=
  .success
    ("config dir:   " ++ c.dir ++ "\n" ++
    "root name:    " ++ c.rootName ++ "\n" ++
    "trace:        " ++ yesNo c.trace ++ "\n" ++
    "dump program: " ++ yesNo c.dump ++ "\n" ++
    "call depth:   " ++ Text.ofInt c.maxDepth ++ "\n" ++
    "base dir:     " ++ c.baseDirPath ++ "\n" ++
    "verbosity:    " ++ Text.ofInt c.verbosity ++ "\n")

/-- Carries out a command under a configuration. -/
def carryOut (files : FileTree) (workDir : Text) (c : Config) (command : Text)
    (args : List Text) : Result :=
  if command == Text.ofString "report" then
    match args with
    | [path] => showReport files workDir path
    | _ => .misuse "Usage: plang report <file>\n"
  else if command == Text.ofString "natives" then listNatives
  else if command == Text.ofString "config" then showConfig c
  else .misuse ("Unknown command: " ++ command ++ "\n" ++ usage)

/-- Runs the command. -/
def run (files : FileTree) (workDir : Text) (args : List Text) : Result :=
  match readOptions Path.dot args with
  | .error o => o.result
  | .ok ⟨_, []⟩ => .misuse usage
  | .ok ⟨dir, command :: rest⟩ =>
    match Config.find files workDir dir with
    | .error e => .failure e.message
    | .ok c => carryOut files workDir c command rest

/-!
## What a command looks at
-/

/-- A directory and those above it, which `fuel` bounds. -/
def upward : Nat → Text → List Text
  | 0, _ => []
  | fuel + 1, dir =>
    let parent := Path.dir dir
    if parent == dir then [dir] else dir :: upward fuel parent

/-- The paths that a command may read, all from the root. -/
def reads (workDir : Text) (args : List Text) : List Text :=
  match readOptions Path.dot args with
  | .error _ => []
  | .ok ⟨dir, rest⟩ =>
    let start := Config.absolute workDir dir
    let settings := (upward (start.size + 1) start).map fun d => Path.join [d, Config.fileName]
    match rest with
    | [command, path] =>
      if command == Text.ofString "report" then Config.absolute workDir path :: settings
      else settings
    | _ => settings

end CommandLine
end ScriptEngine
