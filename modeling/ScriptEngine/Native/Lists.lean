import ScriptEngine.Native.Iterators

/-!
# Methods of lists

Positions count from one. The methods that call back walk the row of cells the list had when they
began.
-/

namespace ScriptEngine
namespace Native

/-- The position from zero that an argument denotes among `n`. -/
def listIndex (l : ListId) (key : Value) (n : Nat) : Effect Nat :=
  match key with
  | .number x =>
    match key.index? n with
    | some i => pure i
    | none => do
      let size ← Effect.reads fun s => s.listSize l
      Effect.raise .outOfRange ("index " ++ Number.display x ++ " out of range for List of length "
        ++ Text.ofNat size)
  | key => do
    let t ← Effect.typeName key
    Effect.raise .typeMismatch ("List index must be a Number, got " ++ t)

/-- What a callback's result adds to the outcome, given the element it was called on. -/
abbrev Collector := Store → Value → Value → Except Fault (List Value)

/-- Calls `f` on the cells `i`, `i + 1`, … of a row, `n` of them, and gathers what `collect` takes
from the results; `finish` makes the outcome of it. -/
def callback (f : Value) (row : Nat) (collect : Collector)
    (finish : List Value → World → Action) : Nat → Nat → List Value → World → Action
  | 0, _, kept, w => finish kept.reverse w
  | n + 1, i, kept, w =>
    let item := w.store.rowGet row i
    .invoke f [item] w fun
      | .error e, w => .fail e w
      | .ok v, w =>
        match collect w.store item v with
        | .ok more => callback f row collect finish n (i + 1) (more ++ kept) w
        | .error e => .fail e w

/-- Ends with a new list. -/
def finishList (capacity : Nat) (items : List Value) (w : World) : Action :=
  let (id, store) := w.store.newListIn items.toArray capacity
  .done (some (.list id)) { w with store := store }

/-- Keeps every result. -/
def keepResult : Collector := fun _ _ v =>
  .ok [v]

/-- Keeps the elements whose result is true; a result that is no Boolean is refused. -/
def keepIf : Collector := fun s item v =>
  match v with
  | .boolean true => .ok [item]
  | .boolean false => .ok []
  | v => .error (.raised .notBoolean
      ("filter callback returned " ++ s.typeName v ++ ", not Boolean"))

/-- Keeps nothing. -/
def keepNothing : Collector := fun _ _ _ =>
  .ok []

/-- A method that calls its argument on every element. -/
def callbackMethod (name : String) (collect : Collector)
    (finish : Nat → List Value → World → Action) : Primitive :=
  .methodWith "List" name 2 fun args w =>
    match args with
    | [.list l, f] =>
      let win := w.store.window l
      callback f win.row collect (finish win.size) win.size 0 [] w
    | _ => Action.ofEffect Effect.impossible w

def listPrimitives : List Primitive :=
  [ .method "List" "plus" 2 fun
      | [.list a, .list b] => do
        let items ← Effect.reads fun s => s.items a ++ s.items b
        Effect.newList items
      | [_, v] => Effect.cannotApply "+" "List" v
      | _ => Effect.impossible,
    .method "List" "push" 2 fun
      | [.list l, v] => do
        Effect.change fun s => s.listPush l v
        pure (.list l)
      | _ => Effect.impossible,
    .method "List" "pop" 1 fun
      | [.list l] => do
        let size ← Effect.reads fun s => s.listSize l
        if size == 0 then Effect.raise .outOfRange "pop from an empty List"
        else
          let last ← Effect.reads fun s => s.listGet l (size - 1)
          Effect.change fun s => s.listPop l
          pure last
      | _ => Effect.impossible,
    .method "List" "len" 1 fun
      | [.list l] => do
        let size ← Effect.reads fun s => s.listSize l
        pure (.number (Number.ofNat size))
      | _ => Effect.impossible,
    .method "List" "get" 2 fun
      | [.list l, key] => do
        let size ← Effect.reads fun s => s.listSize l
        let i ← listIndex l key size
        Effect.reads fun s => s.listGet l i
      | _ => Effect.impossible,
    .method "List" "set" 3 fun
      | [.list l, key, v] => do
        let size ← Effect.reads fun s => s.listSize l
        let i ← listIndex l key size
        Effect.change fun s => s.listSet l i v
        pure v
      | _ => Effect.impossible,
    .method "List" "insert" 3 fun
      | [.list l, key, v] => do
        let size ← Effect.reads fun s => s.listSize l
        let i ← listIndex l key (size + 1)
        Effect.change fun s => s.listInsert l i v
        pure (.list l)
      | _ => Effect.impossible,
    .method "List" "remove" 2 fun
      | [.list l, key] => do
        let size ← Effect.reads fun s => s.listSize l
        let i ← listIndex l key size
        let removed ← Effect.reads fun s => s.listGet l i
        Effect.change fun s => s.listRemove l i
        pure removed
      | _ => Effect.impossible,
    .method "List" "contains" 2 fun
      | [.list l, v] => do
        let items ← Effect.reads fun s => s.items l
        pure (.boolean (items.any (·.equal v)))
      | _ => Effect.impossible,
    .method "List" "join" 2 fun
      | [.list l, v] => do
        let sep ← Effect.textArg "List.join" v
        let parts ← Effect.reads fun s => (s.items l).toList.map s.display
        pure (.text (Text.join sep parts))
      | _ => Effect.impossible,
    callbackMethod "map" keepResult finishList,
    callbackMethod "filter" keepIf finishList,
    callbackMethod "each" keepNothing fun _ _ w => .done (some .null) w,
    .method "List" "iter" 1 fun
      | [.list l] => newIterator (.list l)
      | _ => Effect.impossible ]

end Native
end ScriptEngine
