import ScriptEngine.Native.Library

/-!
# Functions for embedding hosts

A host may add these natives to the table. They fail on demand, call back into the engine and look
at its stack, which lets the host, or a program, observe how the engine treats natives.
-/

namespace ScriptEngine
namespace Native

/-- What is said when a native that calls its first argument has none. -/
def noCallee : Text :=
  "runtime error: index out of range [0] with length 0"

/-- Calls the first argument with the others, and ends as `finish` says. -/
def calling (finish : Except Fault Value → World → Action) : Behaviour := fun args w =>
  match args with
  | [] => .crash noCallee w
  | callee :: rest => .invoke callee rest w finish

/-- Ends with an outcome as it is. -/
def passOn (outcome : Except Fault Value) (w : World) : Action :=
  match outcome with
  | .ok v => .done (some v) w
  | .error f => .fail f w

/-- A list that says whether a call succeeded, and its result or the text of its error. -/
def attempt (outcome : Except Fault Value) : World → Action :=
  let items : Array Value :=
    match outcome with
    | .ok v => #[.boolean true, v]
    | .error f => #[.boolean false, .text f.text]
  Action.ofEffect do
    let l ← Effect.newList items
    pure (some l)

/-- Calls the first argument and takes the engine back to where it was before. -/
def rollback : Behaviour := fun args w =>
  match args with
  | [] => .crash noCallee w
  | callee :: _ =>
    .save w fun snapshot w =>
      .invoke callee [] w fun outcome w =>
        .restore snapshot w (passOn outcome)

/-- The failure class that a number names, taken as a byte. -/
def failureOf (v : Value) : Failure :=
  match v with
  | .number x => Failure.ofNumber ((Number.toWord x).emod 256).toNat
  | _ => .internal

/-- The functions that a host may add. -/
def embeddingPrimitives : List Primitive :=
  [ .function "host_error" (some 1) fun
      | [v] => do
        let t ← Effect.display v
        throw (.fault (.foreign t))
      | _ => Effect.impossible,
    .function "host_raise" (some 2) fun
      | [n, m] => do
        let t ← Effect.display m
        Effect.raise (failureOf n) t
      | _ => Effect.impossible,
    ⟨"host_nil", some 0, fun _ w => .done none w⟩,
    ⟨"host_invoke", none, calling passOn⟩,
    ⟨"host_try", none, calling attempt⟩,
    ⟨"host_depth", some 0, fun _ w =>
      .depth w fun n w => .done (some (.number (Number.ofNat n))) w⟩,
    ⟨"host_rollback", some 1, rollback⟩,
    .function "host_panic" (some 1) fun
      | [v] => do
        let t ← Effect.display v
        Effect.crash t
      | _ => Effect.impossible,
    .function "host_print" (some 1) fun
      | [v] => do
        let t ← Effect.display v
        print ("<" ++ t ++ ">")
        pure v
      | _ => Effect.impossible,
    .method "Boolean" "flip" 1 fun
      | [.boolean b] => pure (.boolean (!b))
      | _ => Effect.impossible,
    .method "Null" "plus" 2 fun
      | [_, v] => pure v
      | _ => Effect.impossible ]

end Native
end ScriptEngine
