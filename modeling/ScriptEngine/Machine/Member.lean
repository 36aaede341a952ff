import ScriptEngine.Machine

/-!
# Members and assignment
-/

namespace ScriptEngine
namespace Exec

/-- Attaches a receiver to a method; values that are no callables stay as they are. -/
def bind (method receiver : Value) : Exec Value :=
  match method with
  | .closure c => onStore fun s =>
    match s.closure? c with
    | none => (method, s)
    | some closure =>
      let (id, s) := s.newClosure { closure with receiver := some receiver }
      (.closure id, s)
  | .native n | .bound n _ => pure (.bound n receiver)
  | v => pure v

/-- The entry, element or field of a value under a key; `none` if it has no such member of its
own. -/
def ownMember (object key : Value) : Exec (Option Value) :=
  match object, key with
  | .dict d, .text k => reads fun m => (m.world.store.dict d).get? k
  | .inst i, .text k => reads fun m => m.world.store.field? i k
  | .list l, .number x => do
    let size ← reads fun m => m.world.store.listSize l
    match key.index? size with
    | some i => do
      let v ← reads fun m => m.world.store.listGet l i
      pure (some v)
    | none =>
      raise .outOfRange ("index " ++ Number.display x ++ " out of range for List of length "
        ++ Text.ofNat size)
  | _, _ => pure none

/-- The method of a value's type under a key, bound to the value. -/
def method (object key : Value) : Exec (Option Value) :=
  match key with
  | .text k => do
    let found ← reads fun m => m.resolve (Key.join k (m.world.store.typeName object))
    match found with
    | some v => do
      let v ← bind v object
      pure (some v)
    | none => pure none
  | _ => pure none

/-- What a value has under a key: its own member first, then a method. -/
def member (object key : Value) : Exec Value := do
  match ← ownMember object key with
  | some v => pure v
  | none =>
    match ← method object key with
    | some v => pure v
    | none => do
      let k ← reads fun m => m.world.store.repr key
      let t ← typeName object
      raise .notFound ("key " ++ k ++ " not found in " ++ t)

/-- Writes into a container in place. -/
def setMember (target key value : Value) : Exec Unit :=
  match target with
  | .dict d =>
    match key with
    | .text k => onStore fun s => ((), s.modifyDict d (·.insert k value))
    | key => do
      let t ← typeName key
      raise .typeMismatch ("Dict keys must be String, got " ++ t)
  | .list l => do
    let size ← reads fun m => m.world.store.listSize l
    match key.index? size with
    | some i => onStore fun s => ((), s.listSet l i value)
    | none => do
      let k ← reads fun m => m.world.store.repr key
      raise .outOfRange ("index " ++ k ++ " out of range for List of length " ++ Text.ofNat size)
  | .inst i => do
    let t ← typeName target
    match key with
    | .text k => do
      let found ← reads fun m => m.world.store.field? i k
      match found with
      | some _ => onStore fun s => ((), s.setField i k value)
      | none => raise .invalidTarget (t ++ " has no field " ++ k.quoted)
    | key => do
      let k ← reads fun m => m.world.store.repr key
      raise .invalidTarget (t ++ " has no field " ++ k)
  | target => do
    let t ← typeName target
    raise .invalidTarget ("cannot assign into " ++ t)

/-- Gives a closure the name it is bound to. The closure is a copy of its own, so no other value
sees the name. -/
def nameClosure (v : Value) (name : Text) : Exec Unit :=
  match v with
  | .closure c => onStore fun s =>
    ((), { s with closures := s.closures.modify c fun closure => { closure with name := name } })
  | _ => pure ()

/-- Binds a name in the frame that a scope says. -/
def bindName (scope : Scope) (name : Text) (v : Value) : Exec Unit := do
  match ← reads (·.frame) with
  | none => crash absent
  | some f => onStore fun s =>
    ((), match scope with
      | .inner => s.define f name v
      | .nearest => s.setNearest f name v
      | .outer => s.setOuter f name v)

/-- Pops name, target and value. The value is copied and written into the target, or bound to the
name where the target is the empty marker, and pushed again. -/
def assign (scope : Scope) : Exec Unit := do
  let name ← pop
  let target ← pop
  let value ← pop
  let value ← copy value
  match target with
  | .empty =>
    match name with
    | .text key =>
      nameClosure value key
      bindName scope key value
      push value
    | _ => crash "assignment name is not a String"
  | target =>
    setMember target name value
    push value

/-- What is said about a name that nothing is bound to. -/
def unbound (name : Text) : Text :=
  "unbound variable " ++ name.quoted

/-- Adds one to a bound number, or takes one away. -/
def bump (name : Text) (up : Bool) : Exec Unit := do
  match ← reads fun m => m.world.store.lookup m.frame name false with
  | none => raise .unbound (unbound name)
  | some (.number x, owner) =>
    onStore fun s => ((), s.define owner name (.number (if up then x + 1 else x - 1)))
  | some (v, _) => do
    let t ← typeName v
    raise .invalidOperand ((if up then "cannot increment " else "cannot decrement ") ++ t)

end Exec
end ScriptEngine
