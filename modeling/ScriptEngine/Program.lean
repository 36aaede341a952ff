import ScriptEngine.Program.Debug
import ScriptEngine.Program.Instruction

/-!
# Programs and their listings

A program is a sequence of instructions with its debug table. Its listing has one line an
instruction; behind the first instruction of a node stand, right-aligned in a column of their own,
the kinds of all nodes that begin there, the widest first.
-/

namespace ScriptEngine

/-- A compiled instruction sequence and its debug table. -/
structure Program where
  code : Array Instruction
  debug : DebugTable
  deriving DecidableEq, Inhabited

namespace Program

/-- Number of instructions. -/
def size (p : Program) : Nat :=
  p.code.size

/-- The entries that begin at an instruction, the widest first, equals in recorded order. -/
def startingAt (p : Program) (ip : Int) : List DebugEntry :=
  (p.debug.filter fun e => 0 < e.length && e.start == ip).mergeSort fun a b => b.length ≤ a.length

/-- The kinds of the nodes that begin at an instruction. -/
def annotation (p : Program) (ip : Nat) : Text :=
  Text.join " " ((p.startingAt ip).map fun e => "+ " ++ e.kind)

/-- The length of the longest text of a list. -/
def widest (texts : List Text) : Nat :=
  texts.foldl (fun w t => max w t.size) 0

/-- One line of a listing. -/
def listingLine (width noteWidth : Nat) (line note : Text) : Text :=
  if note.isEmpty then line ++ "\n"
  else line ++ Text.blanks (width - line.size + 2 + (noteWidth - note.size)) ++ note ++ "\n"

/-- The listing of a program. -/
def listing (p : Program) : Text :=
  let lines := p.code.toList.map Instruction.text
  let notes := (List.range p.size).map p.annotation
  let width := widest lines
  let noteWidth := widest notes
  Text.concat (List.zipWith (listingLine width noteWidth) lines notes)

/-- The instructions that carry a distance, with their positions. -/
def distances (p : Program) : List (Nat × Instruction) :=
  (p.code.toList.zipIdx.filter fun (i, _) => i.op.operandKind == .jump).map fun (i, n) => (n, i)

end Program
end ScriptEngine
