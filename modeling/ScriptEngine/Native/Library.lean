import ScriptEngine.Native.Console
import ScriptEngine.Native.Dicts
import ScriptEngine.Native.Lists
import ScriptEngine.Native.Numbers
import ScriptEngine.Native.Strings
import ScriptEngine.Native.Types

/-!
# The native table

The table holds what a program finds after its own bindings: natives, types and whatever else the
host defines. Natives refer to their behaviours by position.
-/

namespace ScriptEngine

/-- Bindings of the host and the behaviours of the natives among them. -/
structure Library where
  bindings : Table Value
  behaviours : Array Behaviour
  deriving Inhabited

namespace Library

def empty : Library :=
  ⟨Table.empty, #[]⟩

/-- Binds a value. -/
def define (l : Library) (key : Text) (v : Value) : Library :=
  { l with bindings := l.bindings.insert key v }

/-- Makes a dict importable under a path. -/
def defineModule (l : Library) (path : Text) (d : DictId) : Library :=
  l.define (Key.module path) (.dict d)

/-- Adds a native. -/
def register (l : Library) (p : Primitive) : Library :=
  { bindings := l.bindings.insert p.key (.native ⟨p.key, p.arity, l.behaviours.size⟩)
    behaviours := l.behaviours.push p.behaviour }

def registerAll (l : Library) (ps : List Primitive) : Library :=
  ps.foldl register l

/-- The value bound to a key. -/
def resolve (l : Library) (key : Text) : Option Value :=
  l.bindings.get? key

/-- The behaviour of a native. -/
def behaviour (l : Library) (n : NativeInfo) : Behaviour :=
  match l.behaviours[n.behaviour]? with
  | some b => b
  | none => fun _ w =>
    .crash "runtime error: invalid memory address or nil pointer dereference" w

/-- Removes every binding. -/
def clear (l : Library) : Library :=
  { l with bindings := Table.empty }

/-- All primitives of the language. -/
def standardPrimitives : List Primitive :=
  Native.consolePrimitives ++ Native.typePrimitives ++ Native.numberPrimitives
    ++ Native.stringPrimitives ++ Native.listPrimitives ++ Native.dictPrimitives
    ++ Native.iteratorPrimitives

/-- The table of the language. -/
def standard : Library :=
  let types := Native.conversionTargets.foldl
    (fun l name => l.define name (.type (TypeInfo.conversion name))) empty
  (types.registerAll standardPrimitives).define iteratorName (.type TypeInfo.iterator)

end Library
end ScriptEngine
