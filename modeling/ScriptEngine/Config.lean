import ScriptEngine.Host
import ScriptEngine.Machine
import ScriptEngine.Toml.Document

/-!
# Configuration

A configuration sets the engine's options, where log messages go, and the directory that a
program's files are looked up in. It is read from a settings file in a directory or in the nearest
directory above it.
-/

namespace ScriptEngine

structure Config where
  trace : Bool
  dump : Bool
  rootName : Text
  maxDepth : Int
  verbosity : Int
  logFile : Text
  baseDir : Text
  /-- The directory that holds the settings file. -/
  dir : Text
  deriving DecidableEq, Inhabited

/-- Why there is no configuration. -/
inductive ConfigError where
  | unreadable (path : Text) (cause : ReadError)
  | malformed (path : Text)
  | negativeDepth (path : Text)
  | negativeVerbosity (path : Text)
  deriving DecidableEq

namespace ConfigError

def message : ConfigError → Text
  | unreadable path cause => "cannot read " ++ path ++ ": " ++ cause.message path
  | malformed path => "parse error in " ++ path
  | negativeDepth path => path ++ ": max call depth must not be negative"
  | negativeVerbosity path => path ++ ": log verbosity must not be negative"

end ConfigError

namespace Config

/-- The name of the settings file. -/
def fileName : Text :=
  "plang.toml"

/-- The configuration where there is no settings file. -/
def standard : Config :=
  { trace := false, dump := false, rootName := Options.defaultRoot,
    maxDepth := Options.defaultDepth, verbosity := 0, logFile := Text.empty, baseDir := Path.dot,
    dir := Path.dot }

/-!
## Settings
-/

/-- The lower-case letter that a character counts as in a key. Besides the capitals there are two
more characters that fold to a letter: the long s and the sign of the kelvin. -/
def foldKeyChar (c : Char) : Char :=
  if c.toNat == 0x17F then 's' else if c.toNat == 0x212A then 'k' else c.toLower

/-- Whether a key names a setting, whatever its case. -/
def matchesKey (name : String) (key : Text) : Bool :=
  match key.toString? with
  | some k => k.toList.map foldKeyChar == name.toList
  | none => false

/-- Takes over an entry of a table of a document, if it is known; `none` if its value has the wrong
type. -/
abbrev Setter := Toml.Document → Config → Toml.Node → Option Config

def setBoolean (f : Config → Bool → Config) : Setter
  | _, c, .leaf (.boolean b) => some (f c b)
  | _, _, _ => none

def setText (f : Config → Text → Config) : Setter
  | _, c, .leaf (.text t) => some (f c t)
  | _, _, _ => none

def setInteger (f : Config → Int → Config) : Setter
  | _, c, .leaf (.integer i) => some (f c i)
  | _, _, _ => none

/-- Takes over the entries of a table by the settings they name; others are ignored. -/
def applyEntries (settings : List (String × Setter)) (d : Toml.Document) (c : Config) :
    Toml.Entries → Option Config
  | [] => some c
  | (key, node) :: rest =>
    match settings.find? fun (name, _) => matchesKey name key with
    | none => applyEntries settings d c rest
    | some (_, set) =>
      match set d c node with
      | some c => applyEntries settings d c rest
      | none => none

/-- A table of settings. -/
def sectionOf (settings : List (String × Setter)) : Setter
  | d, c, .table id => applyEntries settings d c (d.entries id)
  | _, _, _ => none

/-- The settings of a file. -/
def settings : List (String × Setter) :=
  [ ("engine", sectionOf
      [ ("trace", setBoolean fun c b => { c with trace := b }),
        ("dump-program", setBoolean fun c b => { c with dump := b }),
        ("root-name", setText fun c t => { c with rootName := t }),
        ("max-call-depth", setInteger fun c i => { c with maxDepth := i }) ]),
    ("log", sectionOf
      [ ("verbosity", setInteger fun c i => { c with verbosity := i }),
        ("file", setText fun c t => { c with logFile := t }) ]),
    ("host", sectionOf [ ("base-dir", setText fun c t => { c with baseDir := t }) ]) ]

/-- The configuration that the contents of a settings file describe. -/
def parse? (contents : Text) : Option Config :=
  match Toml.Document.read? contents with
  | some d => applyEntries settings d standard (d.entries Toml.Document.root)
  | none => none

/-!
## Files
-/

/-- A path from the root, relative ones being taken from the working directory. -/
def absolute (workDir path : Text) : Text :=
  if Path.isAbsolute path then Path.clean path else Path.join [workDir, path]

/-- Fills in what a file left empty. -/
def complete (c : Config) : Config :=
  { c with
    baseDir := if c.baseDir.isEmpty then Path.dot else c.baseDir
    rootName := if c.rootName.isEmpty then Options.defaultRoot else c.rootName }

/-- Loads the settings file of a directory. -/
def load (files : FileTree) (workDir dir : Text) : Except ConfigError Config :=
  let path := Path.join [dir, fileName]
  match files.read workDir path with
  | .error e => .error (.unreadable path e)
  | .ok contents =>
    match parse? contents with
    | none => .error (.malformed path)
    | some c =>
      let c := complete { c with dir := absolute workDir dir }
      if c.maxDepth < 0 then .error (.negativeDepth path)
      else if c.verbosity < 0 then .error (.negativeVerbosity path)
      else .ok c

/-- Loads the nearest settings file among a directory and those above it, which `fuel` bounds. -/
def findFrom (files : FileTree) (workDir : Text) : Nat → Text → Except ConfigError Config
  | 0, _ => .ok standard
  | fuel + 1, dir =>
    if files.exists? workDir (Path.join [dir, fileName]) then load files workDir dir
    else
      let parent := Path.dir dir
      if parent == dir then .ok standard else findFrom files workDir fuel parent

/-- Loads the nearest settings file among a directory and those above it, or takes the standard
configuration if there is none. A path has fewer directories above it than bytes. -/
def find (files : FileTree) (workDir dir : Text) : Except ConfigError Config :=
  let start := absolute workDir dir
  findFrom files workDir (start.size + 1) start

/-!
## What follows from a configuration
-/

/-- The directory of a program's files, from the root or from where the configuration was
found. -/
def baseDirPath (c : Config) : Text :=
  if Path.isAbsolute c.baseDir then c.baseDir else Path.join [c.dir, c.baseDir]

/-- The engine's options. -/
def options (c : Config) : Options :=
  Options.ofHost c.trace c.dump c.rootName c.maxDepth

/-- A host with the configured directory. -/
def host (c : Config) (files : FileTree) (workDir : Text) : Host :=
  { Host.new Text.empty with files := files, workDir := workDir, baseDir := c.baseDirPath }

end Config
end ScriptEngine
