import ScriptEngine.Native.Primitive
import ScriptEngine.Number.Reading

/-!
# Types, conversion and general functions
-/

namespace ScriptEngine
namespace Native

/-- The conversion targets bound as globals. -/
def conversionTargets : List String :=
  ["Number", "String", "Boolean", "List", "Dict", "Type"]

/-- The number that a text denotes once the white space around it is dropped. -/
def parseNumber (t : Text) : Effect Value :=
  match Number.read? t.trim with
  | some x => pure (.number x)
  | none => Effect.raise .conversion ("cannot convert " ++ t.quoted ++ " to Number")

/-- A list of the characters of a text, each a text of its own. -/
def charList (t : Text) : Effect Value := do
  let items := (t.chars.map fun c => Value.text (Text.ofChar c)).toArray
  Effect.changeGet fun s =>
    let (id, s) := s.newListIn items t.size
    (.list id, s)

/-- The keys of a dict as values. -/
def dictKeys (s : Store) (d : DictId) : Array Value :=
  ((s.dict d).keys.map Value.text).toArray

/-- Copies a value. -/
def copyValue (v : Value) : Effect Value :=
  Effect.changeGet fun s => s.copy v

/-- A conversion that does not exist. -/
def cannotConvert (v : Value) (target : Text) : Effect Value := do
  let t ← Effect.typeName v
  Effect.raise .conversion ("cannot convert " ++ t ++ " to " ++ target)

/-- The fields of an instance as a dict. -/
def fieldDict (i : InstanceId) : Effect Value :=
  Effect.changeGet fun s =>
    let fields := (s.instanceType i).fields.map fun f => (f, (s.field? i f).getD .null)
    let (id, s) := s.newDict (Table.ofList fields)
    (.dict id, s)

/-- The conversion used where the argument's type has no method for the target. -/
def convert (v : Value) (target : Text) : Effect Value := do
  let own ← Effect.typeName v
  if own == target then copyValue v
  else if target == "String" then
    let t ← Effect.display v
    pure (.text t)
  else if target == "Number" then
    match v with
    | .text t => parseNumber t
    | .boolean b => pure (.number (if b then 1 else 0))
    | v => cannotConvert v target
  else if target == "Boolean" then
    match v with
    | .number x => pure (.boolean (x != 0))
    | .text t => pure (.boolean (!t.isEmpty))
    | .null => pure (.boolean false)
    | v => cannotConvert v target
  else if target == "List" then
    match v with
    | .text t => charList t
    | .dict d =>
      let keys ← Effect.reads fun s => dictKeys s d
      Effect.newList keys
    | v => cannotConvert v target
  else if target == "Dict" then
    match v with
    | .inst i => fieldDict i
    | v => cannotConvert v target
  else if target == "Type" then
    let t ← Effect.reads fun s => s.typeOf v
    pure (.type t)
  else cannotConvert v target

/-- The numbers `lo`, `lo + 1`, … below `hi`. -/
def numberRange (lo hi : Float) : Effect Value :=
  let span := Number.ceil (hi - lo)
  if span ≤ Number.ofNat Effect.sequenceLimit then
    let n := if 0 < span then (Number.toWord span).toNat else 0
    Effect.newList (Array.ofFn fun i : Fin n => Value.number (lo + Number.ofNat i))
  else
    Effect.raise .invalidOperand ("range of " ++ Number.display lo ++ " to " ++ Number.display hi
      ++ " is longer than " ++ Text.ofNat Effect.sequenceLimit)

def typePrimitives : List Primitive :=
  [ .function "type" (some 1) fun
      | [v] => do
        let t ← Effect.reads fun s => s.typeOf v
        pure (.type t)
      | _ => Effect.impossible,
    .function "clone" (some 1) fun
      | [v] => Effect.changeGet fun s => s.clone v
      | _ => Effect.impossible,
    .function "eq" (some 2) fun
      | [a, b] => pure (.boolean (a.equal b))
      | _ => Effect.impossible,
    .function "neq" (some 2) fun
      | [a, b] => pure (.boolean (!a.equal b))
      | _ => Effect.impossible,
    .function "range" none fun
      | [n] => do
        let hi ← Effect.numberArg "range" n
        numberRange 0 hi
      | [a, b] => do
        let lo ← Effect.numberArg "range" a
        let hi ← Effect.numberArg "range" b
        numberRange lo hi
      | args =>
        Effect.raise .arity ("range expects 1 or 2 arguments, got " ++ Text.ofNat args.length),
    .method "Type" "name" 1 fun
      | [.type t] => pure (.text t.name)
      | _ => Effect.impossible,
    .method "Type" "fields" 1 fun
      | [.type t] => Effect.newList (t.fields.map Value.text).toArray
      | _ => Effect.impossible ]

end Native
end ScriptEngine
