import ScriptEngine.Text

/-!
# Source positions

Syntax nodes carry the range of source text they came from, and diagnostics point at it.
-/

namespace ScriptEngine

/-- A line and a column, both counted from one. -/
structure Position where
  line : Int
  column : Int
  deriving DecidableEq, Inhabited

/-- A range of source text. -/
structure Span where
  file : Text
  start : Position
  stop : Position
  deriving DecidableEq, Inhabited

namespace Span

/-- The span of a node without a position. -/
def zero : Span :=
  ⟨Text.empty, ⟨0, 0⟩, ⟨0, 0⟩⟩

/-- Line and column of the start, behind the file if there is one. -/
def text (s : Span) : Text :=
  let place := Text.ofInt s.start.line ++ ":" ++ Text.ofInt s.start.column
  if s.file.isEmpty then place else s.file ++ ":" ++ place

end Span
end ScriptEngine
