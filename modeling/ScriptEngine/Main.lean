import ScriptEngine.CommandLine

/-!
# The program

The outer layer of the command: it fetches what the command may read, and writes what it answers.
-/

namespace ScriptEngine
namespace CommandLine

/-- Adds what stands at a path, if anything does. -/
def fetch (files : FileTree) (path : Text) : IO FileTree := do
  match path.toString? with
  | none => pure files
  | some name =>
    try
      let contents ← IO.FS.readBinFile name
      pure (files.addFile path ⟨contents⟩)
    catch
      | .noFileOrDirectory .. => pure files
      | _ => pure (files.addDir path)

/-- Answers the command with the given arguments, in the directory it was started in. -/
def serve (arguments : List String) : IO UInt32 := do
  let here ← IO.currentDir
  let workDir := Text.ofString here.toString
  let args := arguments.map Text.ofString
  let files ← (reads workDir args).foldlM fetch (FileTree.empty.addDir workDir)
  let result := run files workDir args
  let out ← IO.getStdout
  let err ← IO.getStderr
  out.write result.output.bytes
  err.write result.errors.bytes
  out.flush
  err.flush
  pure (UInt32.ofNat result.status)

end CommandLine
end ScriptEngine

def main (arguments : List String) : IO UInt32 :=
  ScriptEngine.CommandLine.serve arguments
