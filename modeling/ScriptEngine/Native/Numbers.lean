import ScriptEngine.Native.Primitive

/-!
# Methods of numbers
-/

namespace ScriptEngine
namespace Native

/-- A binary operator on numbers. -/
structure NumberOp where
  method : String
  token : String
  apply : Float → Float → Effect Value

/-- A quotient or remainder, which needs a divisor other than zero. -/
def divided (what : String) (f : Float → Float → Float) (a b : Float) : Effect Value :=
  if b == 0 then Effect.raise .invalidOperand (what ++ " by zero")
  else pure (.number (f a b))

def numberOps : List NumberOp :=
  [ ⟨"plus", "+", fun a b => pure (.number (a + b))⟩,
    ⟨"minus", "-", fun a b => pure (.number (a - b))⟩,
    ⟨"times", "*", fun a b => pure (.number (a * b))⟩,
    ⟨"divide", "/", divided "division" (· / ·)⟩,
    ⟨"mod", "%", divided "modulo" Number.remainder⟩,
    ⟨"lt", "<", fun a b => pure (.boolean (a < b))⟩,
    ⟨"lte", "<=", fun a b => pure (.boolean (a ≤ b))⟩,
    ⟨"gt", ">", fun a b => pure (.boolean (b < a))⟩,
    ⟨"gte", ">=", fun a b => pure (.boolean (b ≤ a))⟩ ]

namespace NumberOp

def primitive (op : NumberOp) : Primitive :=
  .method "Number" op.method 2 fun
    | [.number a, .number b] => op.apply a b
    | [_, v] => Effect.cannotApply op.token "Number" v
    | _ => Effect.impossible

end NumberOp

/-- A method of a number alone. -/
def numberMethod (name : String) (f : Float → Value) : Primitive :=
  .method "Number" name 1 fun
    | [.number x] => pure (f x)
    | _ => Effect.impossible

def numberPrimitives : List Primitive :=
  numberOps.map NumberOp.primitive ++
    [ numberMethod "toString" fun x => .text (Number.display x),
      numberMethod "floor" fun x => .number (Number.floor x),
      numberMethod "abs" fun x => .number (Number.abs x) ]

end Native
end ScriptEngine
