import ScriptEngine.Native.Primitive

/-!
# Iterators

An iterator is an instance with a list and a position. Each step gives the element at the position
and true, and moves on; past the end it gives null and false.
-/

namespace ScriptEngine
namespace Native

/-- An iterator at the start of a list. -/
def newIterator (items : Value) : Effect Value :=
  Effect.changeGet fun s =>
    let (id, s) := s.newInstance TypeInfo.iterator
    (.inst id, (s.setField id "items" items).setField id "position" (.number 0))

/-- A field of an iterator that must have a certain type. -/
def wrongField (field expected : String) (v : Value) : Effect Value := do
  let t ← Effect.typeName v
  Effect.raise .typeMismatch ("iterator " ++ Text.ofString field ++ " is " ++ t ++ ", not "
    ++ Text.ofString expected)

/-- One step of an iterator. The position moves before the element is read. -/
def next (it : InstanceId) : Effect Value := do
  let items ← Effect.reads fun s => (s.field? it "items").getD .null
  let position ← Effect.reads fun s => (s.field? it "position").getD .null
  match items with
  | .list l =>
    match position with
    | .number x =>
      let i := Number.toWord x
      let size ← Effect.reads fun s => s.listSize l
      if (size : Int) ≤ i then Effect.newList #[.null, .boolean false]
      else
        Effect.change fun s => s.setField it "position" (.number (x + 1))
        if i < 0 then
          Effect.crash ("runtime error: index out of range [" ++ Text.ofInt i ++ "]")
        else
          let v ← Effect.reads fun s => s.listGet l i.toNat
          Effect.newList #[v, .boolean true]
    | v => wrongField "position" "Number" v
  | v => wrongField "source" "List" v

def iteratorPrimitives : List Primitive :=
  [ .method iteratorName "next" 1 fun
      | [.inst it] => next it
      | _ => Effect.impossible ]

end Native
end ScriptEngine
