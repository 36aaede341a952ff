import ScriptEngine.Problem

/-!
# Faults

A fault ends the work in progress with an error. It is raised without a place, and the engine
locates it once, at the instruction being executed; what was located keeps its problems and its
trace on the way out. Crashes are different: they mean that the engine itself was misused, and end
the whole run at once.
-/

namespace ScriptEngine

/-- An error on its way out. -/
inductive Fault where
  /-- Raised by an instruction or a native, not located yet. -/
  | raised (failure : Failure) (message : Text)
  /-- Located, with its diagnostics and the call history of its place. -/
  | located (failure : Failure) (message : Text) (problems : Array Problem) (trace : Trace)
  /-- An error of the host, unknown to the engine. -/
  | foreign (message : Text)
  deriving Inhabited

namespace Fault

/-- The error as text: the first diagnostic if there is one, the message otherwise. -/
def text : Fault → Text
  | raised _ message => message
  | located _ message problems _ =>
    match problems[0]? with
    | some p => p.text
    | none => message
  | foreign message => message

def failure : Fault → Failure
  | raised f _ => f
  | located f .. => f
  | foreign _ => .internal

def message : Fault → Text
  | raised _ m => m
  | located _ m _ _ => m
  | foreign m => m

def problems : Fault → Array Problem
  | located _ _ p _ => p
  | _ => #[]

def trace : Fault → Trace
  | located _ _ _ t => t
  | _ => #[]

end Fault

/-- Why a computation stopped early. -/
inductive Stop where
  | fault (f : Fault)
  | crash (message : Text)
  deriving Inhabited

end ScriptEngine
