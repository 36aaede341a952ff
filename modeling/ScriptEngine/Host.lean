import ScriptEngine.FileTree
import ScriptEngine.Text.Blank

/-!
# The host

The host is everything outside the engine that a program can reach: its output, its input, the
files below a base directory, and code of the surrounding system.
-/

namespace ScriptEngine

/-- What the host does with code of the surrounding system. -/
inductive Foreign where
  /-- It has no way to run such code. -/
  | unsupported
  /-- It answers with the code and its bindings. -/
  | echo
  /-- It runs without a result. -/
  | silent
  /-- It refuses every code. -/
  | failing
  deriving DecidableEq, Inhabited

structure Host where
  output : Text
  input : Text
  files : FileTree
  workDir : Text
  baseDir : Text
  foreign : Foreign
  deriving Inhabited

namespace Host

/-- A host without files. -/
def new (input : Text) : Host :=
  ⟨Text.empty, input, FileTree.empty, Path.slash, Path.dot, .unsupported⟩

/-- Writes text to the output. -/
def print (h : Host) (t : Text) : Host :=
  { h with output := h.output ++ t }

def newline : UInt8 := 10

def carriageReturn : UInt8 := 13

/-- The first line of a text, without its end, and what follows it; `none` at the end. -/
def splitLine (t : Text) : Option (Text × Text) :=
  if t.isEmpty then none
  else
    let stop :=
      match t.find? "\n" with
      | some i => i + 1
      | none => t.size
    some ((t.take stop).trimEnd fun b => b == newline || b == carriageReturn, t.drop stop)

/-- Writes a prompt and reads one line; `none` at the end of the input. -/
def readLine (h : Host) (prompt : Text) : Option Text × Host :=
  let h := h.print prompt
  match splitLine h.input with
  | none => (none, h)
  | some (line, rest) => (some line, { h with input := rest })

/-- The contents of a file; relative paths start at the base directory. -/
def readFile (h : Host) (path : Text) : Option Text :=
  let full := if Path.isAbsolute path then path else Path.join [h.baseDir, path]
  (h.files.read h.workDir full).toOption

end Host
end ScriptEngine
