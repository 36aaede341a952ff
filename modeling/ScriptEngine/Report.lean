import ScriptEngine.Digest
import ScriptEngine.Machine.Execute

/-!
# Problem reports

A report is what a problem reporter needs to know about one run: which half of the pipeline failed,
the program's digest, the problems, and the call history with the most recent call last.
-/

namespace ScriptEngine

/-- Which half of the pipeline a report is about. A report that was read may name any number. -/
structure Stage where
  number : Nat
  deriving DecidableEq, Inhabited

namespace Stage

def compile : Stage :=
  ⟨1⟩

def runtime : Stage :=
  ⟨2⟩

def name (s : Stage) : Text :=
  if s = compile then "compile" else if s = runtime then "runtime" else "unknown"

end Stage

structure Report where
  /-- Sixteen bytes. -/
  runId : Text
  stage : Stage
  /-- Thirty-two bytes. -/
  hash : Text
  problems : List Problem
  /-- The most recent call last. -/
  frames : List TraceFrame
  /-- Milliseconds. -/
  created : Int
  deriving DecidableEq, Inhabited

namespace Report

/-- A text of zero bytes. -/
def zeros (n : Nat) : Text :=
  Text.ofList (List.replicate n 0)

/-- A report without content. -/
def blank : Report :=
  ⟨zeros 16, ⟨0⟩, zeros 32, [], [], 0⟩

def hasProblems (r : Report) : Bool :=
  !r.problems.isEmpty

/-- A program is identified by the digest of its listing, no program by zeros. -/
def programHash : Option Program → Text
  | none => zeros 32
  | some p => Digest.sha256 p.listing

/-- The report of a failed compilation. -/
def ofProblems (runId : Text) (created : Int) (p : Option Program) (problems : List Problem) :
    Report :=
  ⟨runId, .compile, programHash p, problems, [], created⟩

/-- The report of a run. -/
def ofRun (runId : Text) (created : Int) (p : Option Program) (problems : List Problem)
    (trace : Trace) : Report :=
  ⟨runId, .runtime, programHash p, problems, trace.toList.reverse, created⟩

/-- The report of what a run ended with. -/
def ofEnding (runId : Text) (created : Int) (p : Option Program) : Ending → Report
  | .value _ => ofRun runId created p [] #[]
  | .failed problems trace => ofRun runId created p problems.toList trace

/-!
## Text
-/

/-- A place as reports show it: file, line and column, also where the file has no name. -/
def place (s : Span) : Text :=
  s.file ++ ":" ++ Text.ofInt s.start.line ++ ":" ++ Text.ofInt s.start.column

/-- The line of a problem. -/
def problemLine (stage : Stage) (p : Problem) : Text :=
  let front :=
    match p.span with
    | some s => place s ++ ": "
    | none => Text.empty
  front ++ stage.name ++ " error[" ++ p.code ++ "]: " ++ p.message ++ " (" ++ p.hint ++ ")\n"

/-- The line of a call. -/
def frameLine (f : TraceFrame) : Text :=
  match f.span with
  | some s => "  in " ++ f.name ++ " at " ++ place s ++ "\n"
  | none => "  in " ++ f.name ++ "\n"

/-- One line a problem, then one line a call. -/
def render (r : Report) : Text :=
  Text.concat (r.problems.map (problemLine r.stage)) ++ Text.concat (r.frames.map frameLine)

/-- Sixteen bytes in groups of hexadecimal digits. -/
def idText (id : Text) : Text :=
  let part (i j : Nat) : Text := (id.slice i j).toHex
  Text.join "-" [part 0 4, part 4 6, part 6 8, part 8 10, part 10 16]

/-- The identifier of the run as text. -/
def runIdText (r : Report) : Text :=
  idText r.runId

end Report
end ScriptEngine
