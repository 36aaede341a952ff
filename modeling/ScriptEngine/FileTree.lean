import ScriptEngine.Path
import ScriptEngine.Table

/-!
# File trees

A file tree is a finite set of directories and files with their contents, named by absolute cleaned
paths. Looking up a path walks it element by element, so every element before the last must be a
directory.
-/

namespace ScriptEngine

/-- What stands at a path. -/
inductive Node where
  | directory
  | file (contents : Text)
  deriving DecidableEq, Inhabited

/-- Directories and files by their absolute cleaned paths; the root directory always exists. -/
structure FileTree where
  nodes : Table Node
  deriving Inhabited

/-- Why a file could not be read. -/
inductive ReadError where
  | missing
  | notDirectory
  | isDirectory
  | invalid
  deriving DecidableEq

namespace ReadError

/-- The operation that fails and the reason, as the system words them. -/
def message (path : Text) : ReadError → Text
  | missing => "open " ++ path ++ ": no such file or directory"
  | notDirectory => "open " ++ path ++ ": not a directory"
  | isDirectory => "read " ++ path ++ ": is a directory"
  | invalid => "open " ++ path ++ ": invalid argument"

end ReadError

namespace FileTree

def empty : FileTree :=
  ⟨Table.empty⟩

/-- The absolute path of a list of elements. -/
def pathOf (elements : List Text) : Text :=
  Path.slash ++ Text.join Path.slash elements

/-- The node at the path of a list of elements. -/
def node? (t : FileTree) (elements : List Text) : Option Node :=
  if elements.isEmpty then some .directory else t.nodes.get? (pathOf elements)

/-- Adds the directories along a path. -/
def addDirs (t : FileTree) (soFar : List Text) : List Text → FileTree
  | [] => t
  | e :: rest =>
    let here := soFar ++ [e]
    let t := if (t.node? here).isSome then t else ⟨t.nodes.insert (pathOf here) .directory⟩
    addDirs t here rest

/-- Adds a directory with everything above it. -/
def addDir (t : FileTree) (path : Text) : FileTree :=
  t.addDirs [] (Path.cleanElements path)

/-- Adds a file with all directories above it. -/
def addFile (t : FileTree) (path contents : Text) : FileTree :=
  let elements := Path.cleanElements path
  ⟨(t.addDirs [] elements.dropLast).nodes.insert (pathOf elements) (.file contents)⟩

/-- What every system has: the null device, which reads as an empty file. -/
def system : FileTree :=
  empty.addFile "/dev/null" Text.empty

/-- Walks a path element by element from a directory. -/
def walk (t : FileTree) (here : List Text) : List Text → Except ReadError (List Text)
  | [] => .ok here
  | e :: rest =>
    match t.node? here with
    | none => .error .missing
    | some (.file _) => .error .notDirectory
    | some .directory =>
      if e.isEmpty || e == Path.dot then walk t here rest
      else if e == Path.dotDot then walk t here.dropLast rest
      else walk t (here ++ [e]) rest

/-- The node that a path, relative to the working directory `cwd` unless it is absolute, leads
to. -/
def resolve (t : FileTree) (cwd path : Text) : Except ReadError Node :=
  if path.isEmpty then .error .missing
  else if path.contains (Text.ofList [0]) then .error .invalid
  else
    let start := if Path.isAbsolute path then [] else Path.cleanElements cwd
    match t.walk start (Path.elements path) with
    | .error e => .error e
    | .ok here =>
      match t.node? here with
      | none => .error .missing
      | some node => .ok node

/-- The contents of the file at a path. -/
def read (t : FileTree) (cwd path : Text) : Except ReadError Text :=
  match t.resolve cwd path with
  | .error e => .error e
  | .ok .directory => .error .isDirectory
  | .ok (.file contents) => .ok contents

/-- Whether something stands at a path. -/
def exists? (t : FileTree) (cwd path : Text) : Bool :=
  match t.resolve cwd path with
  | .error _ => false
  | .ok _ => true

end FileTree
end ScriptEngine
