import ScriptEngine.Number.Binary
import ScriptEngine.Source

/-!
# Debug tables

A debug table ties ranges of instructions to the syntax nodes they were generated for. Looking up
an instruction gives the most specific node: the shortest range around it, the first recorded one
among equals.
-/

namespace ScriptEngine

/-- The `length` instructions before `stop` belong to a node. -/
structure DebugEntry where
  stop : Int
  length : Int
  span : Span
  kind : Text
  deriving DecidableEq, Inhabited

namespace DebugEntry

/-- The first instruction of the range. Positions are signed words of 64 bits, so a range whose
start lies outside of them wraps around. -/
def start (e : DebugEntry) : Int :=
  Number.wrapWord (e.stop - e.length)

/-- Whether an instruction lies in the range. -/
def covers (e : DebugEntry) (ip : Int) : Bool :=
  e.start ≤ ip && ip < e.stop

/-- The entry after `offset` instructions were put in front. -/
def shift (e : DebugEntry) (offset : Nat) : DebugEntry :=
  { e with stop := e.stop + offset }

end DebugEntry

/-- Entries in the order they were recorded, inner nodes before outer ones. -/
abbrev DebugTable := List DebugEntry

namespace DebugTable

/-- The better of the best entry so far and a later one. -/
def better (ip : Int) (best : Option DebugEntry) (e : DebugEntry) : Option DebugEntry :=
  if e.covers ip then
    match best with
    | none => some e
    | some b => if e.length < b.length then some e else best
  else best

/-- The most specific entry around an instruction. -/
def lookup (t : DebugTable) (ip : Int) : Option DebugEntry :=
  t.foldl (better ip) none

end DebugTable
end ScriptEngine
