import ScriptEngine.Native.Iterators
import ScriptEngine.Native.Types

/-!
# Methods of dicts
-/

namespace ScriptEngine
namespace Native

/-- The value under a key that must be bound. -/
def dictEntry (d : DictId) (key : Text) : Effect Value := do
  let found ← Effect.reads fun s => (s.dict d).get? key
  match found with
  | some v => pure v
  | none => Effect.raise .notFound ("key " ++ key.quoted ++ " not found in Dict")

def dictPrimitives : List Primitive :=
  [ .method "Dict" "get" 2 fun
      | [.dict d, k] => do
        let key ← Effect.textArg "Dict.get" k
        dictEntry d key
      | _ => Effect.impossible,
    .method "Dict" "set" 3 fun
      | [.dict d, k, v] => do
        let key ← Effect.textArg "Dict.set" k
        Effect.change fun s => s.modifyDict d (·.insert key v)
        pure v
      | _ => Effect.impossible,
    .method "Dict" "has" 2 fun
      | [.dict d, k] => do
        let key ← Effect.textArg "Dict.has" k
        let found ← Effect.reads fun s => (s.dict d).contains key
        pure (.boolean found)
      | _ => Effect.impossible,
    .method "Dict" "keys" 1 fun
      | [.dict d] => do
        let keys ← Effect.reads fun s => dictKeys s d
        Effect.newList keys
      | _ => Effect.impossible,
    .method "Dict" "values" 1 fun
      | [.dict d] => do
        let values ← Effect.reads fun s => (s.dict d).values.toArray
        Effect.newList values
      | _ => Effect.impossible,
    .method "Dict" "len" 1 fun
      | [.dict d] => do
        let size ← Effect.reads fun s => (s.dict d).size
        pure (.number (Number.ofNat size))
      | _ => Effect.impossible,
    .method "Dict" "remove" 2 fun
      | [.dict d, k] => do
        let key ← Effect.textArg "Dict.remove" k
        let v ← dictEntry d key
        Effect.change fun s => s.modifyDict d (·.erase key)
        pure v
      | _ => Effect.impossible,
    .method "Dict" "iter" 1 fun
      | [.dict d] => do
        let keys ← Effect.reads fun s => dictKeys s d
        let items ← Effect.newList keys
        newIterator items
      | _ => Effect.impossible ]

end Native
end ScriptEngine
