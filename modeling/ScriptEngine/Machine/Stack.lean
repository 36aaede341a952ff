import ScriptEngine.Value

/-!
# The operand stack

Popping lowers the height and leaves the slot as it is. A return that sets the height back to what
it was at the call may therefore bring slots to light again that the callee had popped.
-/

namespace ScriptEngine

/-- Slots and how many of them are in use. -/
structure OperandStack where
  slots : Array Value
  height : Nat
  deriving DecidableEq, Inhabited

namespace OperandStack

def empty : OperandStack :=
  ⟨#[], 0⟩

def push (s : OperandStack) (v : Value) : OperandStack :=
  if s.height < s.slots.size then ⟨s.slots.setIfInBounds s.height v, s.height + 1⟩
  else ⟨s.slots.push v, s.height + 1⟩

/-- The top value, if there is one. -/
def top? (s : OperandStack) : Option Value :=
  if s.height == 0 then none else s.slots[s.height - 1]?

/-- The stack without its top. -/
def drop (s : OperandStack) : OperandStack :=
  { s with height := s.height - 1 }

/-- Sets the height. -/
def cut (s : OperandStack) (height : Nat) : OperandStack :=
  { s with height := height }

/-- The values in use, the top last. -/
def values (s : OperandStack) : List Value :=
  s.slots.toList.take s.height

end OperandStack
end ScriptEngine
