import ScriptEngine.Native.Types
import ScriptEngine.Native.Iterators
import ScriptEngine.Text.Letters

/-!
# Methods of strings
-/

namespace ScriptEngine
namespace Native

/-- A comparison of texts by bytes. -/
def comparison (method token : String) (holds : Ordering → Bool) : Primitive :=
  .method "String" method 2 fun
    | [.text a, .text b] => pure (.boolean (holds (compare a b)))
    | [_, v] => Effect.cannotApply token "String" v
    | _ => Effect.impossible

/-- A text repeated as often as the integer part of a number says. -/
def repeated (t : Text) (n : Float) : Effect Value :=
  if !(0 ≤ n) then
    Effect.raise .invalidOperand ("cannot repeat a String " ++ Number.display n ++ " times")
  else if 0 < t.size && Number.ofNat (Effect.sequenceLimit / t.size) < n then
    Effect.raise .invalidOperand ("repeating a String of length " ++ Text.ofNat t.size ++ " "
      ++ Number.display n ++ " times is longer than " ++ Text.ofNat Effect.sequenceLimit)
  else
    let count := Number.toWord n
    if count < 0 then Effect.crash "strings: negative Repeat count"
    else if t.isEmpty then pure (.text Text.empty)
    else pure (.text (Text.replicate count.toNat t))

/-- The pieces of a text between separators, or its characters if the separator is empty. -/
def pieces (t sep : Text) : List Text :=
  if sep.isEmpty then t.explode else t.splitOn sep

/-- A method of a string alone. -/
def stringMethod (name : String) (f : Text → Effect Value) : Primitive :=
  .method "String" name 1 fun
    | [.text t] => f t
    | _ => Effect.impossible

def stringPrimitives : List Primitive :=
  [ .method "String" "plus" 2 fun
      | [.text a, b] => do
        let t ← Effect.display b
        pure (.text (a ++ t))
      | _ => Effect.impossible,
    .method "String" "times" 2 fun
      | [.text a, .number n] => repeated a n
      | [_, v] => Effect.cannotApply "*" "String" v
      | _ => Effect.impossible,
    comparison "lt" "<" (· == .lt),
    comparison "lte" "<=" (· != .gt),
    comparison "gt" ">" (· == .gt),
    comparison "gte" ">=" (· != .lt),
    stringMethod "len" fun t => pure (.number (Number.ofNat t.length)),
    stringMethod "upper" fun t => pure (.text t.toUpper),
    stringMethod "lower" fun t => pure (.text t.toLower),
    .method "String" "split" 2 fun
      | [.text t, v] => do
        let sep ← Effect.textArg "String.split" v
        Effect.newList ((pieces t sep).map Value.text).toArray
      | _ => Effect.impossible,
    .method "String" "contains" 2 fun
      | [.text t, v] => do
        let part ← Effect.textArg "String.contains" v
        pure (.boolean (t.contains part))
      | _ => Effect.impossible,
    stringMethod "toNumber" parseNumber,
    stringMethod "iter" fun t => do
      let items ← charList t
      newIterator items ]

end Native
end ScriptEngine
