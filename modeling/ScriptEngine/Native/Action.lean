import ScriptEngine.Fault
import ScriptEngine.Host
import ScriptEngine.Journal
import ScriptEngine.Store.Frames
import ScriptEngine.Value.Copy

/-!
# What natives do

A native works on the world: the store, the host and the journal. It ends with a result or a
fault, or asks the engine to call something and goes on with the outcome. Seen from the engine a
native is therefore a tree of actions; most natives never ask for a call and are written as effects
on the world.
-/

namespace ScriptEngine

/-- Everything that natives can read and change. -/
structure World where
  store : Store
  host : Host
  journal : Journal
  deriving Inhabited

/-- The depths of the engine's stacks at one moment, to which it can be taken back. -/
structure Snapshot where
  stack : Nat
  frame : Option FrameId
  captured : Nat
  calls : Nat
  natives : Nat
  ip : Int
  deriving DecidableEq, Inhabited

/-- What a native does next. The last three look into the engine or take it back; the standard
natives do not use them. -/
inductive Action where
  /-- Ends with a value, or without one. -/
  | done (result : Option Value) (world : World)
  | fail (fault : Fault) (world : World)
  | crash (message : Text) (world : World)
  /-- Has the engine call a value, and goes on with the outcome. -/
  | invoke (callee : Value) (args : List Value) (world : World)
      (resume : Except Fault Value → World → Action)
  /-- Asks for the depth of the operand stack. -/
  | depth (world : World) (resume : Nat → World → Action)
  | save (world : World) (resume : Snapshot → World → Action)
  | restore (snapshot : Snapshot) (world : World) (resume : World → Action)

/-- A native as a function of its arguments, the receiver first. -/
abbrev Behaviour := List Value → World → Action

/-- A computation on the world that calls nothing. -/
abbrev Effect := EStateM Stop World

namespace Effect

/-- Raises a failure. -/
def raise {α : Type} (f : Failure) (message : Text) : Effect α :=
  throw (.fault (.raised f message))

def crash {α : Type} (message : Text) : Effect α :=
  throw (.crash message)

/-- Reads something off the store. -/
def reads {α : Type} (f : Store → α) : Effect α :=
  fun w => let a := f w.store; .ok a w

/-- Changes the store. -/
def change (f : Store → Store) : Effect Unit :=
  fun ⟨store, host, journal⟩ => .ok () ⟨f store, host, journal⟩

/-- Changes the store and gives back something about it. -/
def changeGet {α : Type} (f : Store → α × Store) : Effect α :=
  fun ⟨store, host, journal⟩ =>
    match f store with
    | (a, store) => .ok a ⟨store, host, journal⟩

/-- Changes the host and gives back something about it. -/
def onHost {α : Type} (f : Host → α × Host) : Effect α :=
  fun ⟨store, host, journal⟩ =>
    match f host with
    | (a, host) => .ok a ⟨store, host, journal⟩

/-- A new list as a value. -/
def newList (items : Array Value) : Effect Value :=
  changeGet fun s =>
    let (id, s) := s.newList items
    (.list id, s)

/-- The type name of a value. -/
def typeName (v : Value) : Effect Text :=
  reads (·.typeName v)

/-- The text that a program prints for a value. -/
def display (v : Value) : Effect Text :=
  reads fun s => s.display v

end Effect

namespace Action

/-- The action of an effect that gives a result. -/
def ofEffect (e : Effect (Option Value)) (w : World) : Action :=
  match e w with
  | .ok v w => .done v w
  | .error (.fault f) w => .fail f w
  | .error (.crash m) w => .crash m w

end Action

namespace Behaviour

/-- A native that calls nothing. -/
def ofEffect (f : List Value → Effect Value) : Behaviour :=
  fun args => Action.ofEffect do
    let v ← f args
    pure (some v)

end Behaviour
end ScriptEngine
