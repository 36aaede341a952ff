import ScriptEngine.Native.Action

/-!
# Primitives

A primitive is a native with its binding key and arity. Methods see receivers of the engine's own
types only; an instance of a program's type that shares the name is refused.
-/

namespace ScriptEngine

/-- A native before it is registered. -/
structure Primitive where
  key : Text
  arity : Option Nat
  behaviour : Behaviour

namespace Primitive

/-- A function that calls nothing. -/
def function (key : String) (arity : Option Nat) (f : List Value → Effect Value) : Primitive :=
  ⟨key, arity, Behaviour.ofEffect f⟩

/-- Lets a behaviour see only receivers of one built-in type. -/
def guarded (key type : Text) (b : Behaviour) : Behaviour := fun args w =>
  match args with
  | [] => b args w
  | receiver :: _ =>
    if w.store.isBuiltin receiver type then b args w
    else
      .fail (.raised .typeMismatch
        (Key.display key ++ " expects a built-in " ++ type ++ " receiver, got "
          ++ w.store.describe receiver)) w

/-- A method of a built-in type; the receiver counts toward the arity. -/
def methodWith (type name : String) (arity : Nat) (b : Behaviour) : Primitive :=
  let key := Key.join name type
  ⟨key, some arity, guarded key type b⟩

/-- A method that calls nothing. -/
def method (type name : String) (arity : Nat) (f : List Value → Effect Value) : Primitive :=
  methodWith type name arity (Behaviour.ofEffect f)

end Primitive

namespace Effect

/-- The engine passes as many arguments as a primitive's arity says. -/
def impossible {α : Type} : Effect α :=
  crash "runtime error: invalid memory address or nil pointer dereference"

/-- Refuses an argument that is not of the expected type. -/
def mismatch {α : Type} (f : Failure) (name expected : String) (v : Value) : Effect α := do
  let t ← typeName v
  raise f (name ++ " expects a " ++ Text.ofString expected ++ ", got " ++ t)

def numberArg (name : String) (v : Value) : Effect Float :=
  match v with
  | .number x => pure x
  | v => mismatch .typeMismatch name "Number" v

def textArg (name : String) (v : Value) : Effect Text :=
  match v with
  | .text t => pure t
  | v => mismatch .typeMismatch name "String" v

def dictArg (name : String) (v : Value) : Effect DictId :=
  match v with
  | .dict d => pure d
  | v => mismatch .typeMismatch name "Dict" v

def booleanArg (name : String) (v : Value) : Effect Bool :=
  match v with
  | .boolean b => pure b
  | v => mismatch .notBoolean name "Boolean" v

/-- Refuses an operator whose operands do not fit together. -/
def cannotApply {α : Type} (op left : String) (right : Value) : Effect α := do
  let t ← typeName right
  raise .typeMismatch ("cannot apply " ++ Text.ofString op ++ " to " ++ Text.ofString left
    ++ " and " ++ t)

/-- The most elements or bytes that a native builds from a count that a program gives. -/
def sequenceLimit : Nat :=
  16777216

end Effect
end ScriptEngine
