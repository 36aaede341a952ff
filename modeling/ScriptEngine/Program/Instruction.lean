import ScriptEngine.Number.Display
import ScriptEngine.Number.Reading
import ScriptEngine.Program.Opcode
import ScriptEngine.Text.Quoted

/-!
# Instructions

An instruction is an opcode with an optional operand, which is text whatever it stands for.
-/

namespace ScriptEngine

/-- One unit of a program. -/
structure Instruction where
  op : Opcode
  operand : Option Text
  deriving DecidableEq, Inhabited

namespace Instruction

/-- An instruction without an operand. -/
def bare (op : Operation) : Instruction :=
  ⟨op, none⟩

/-- An instruction with an operand. -/
def withText (op : Operation) (operand : Text) : Instruction :=
  ⟨op, some operand⟩

/-- An instruction whose operand is a distance from the next instruction. -/
def withDistance (op : Operation) (distance : Int) : Instruction :=
  withText op (Text.ofInt distance)

/-- The instruction that pushes a number. -/
def number (x : Float) : Instruction :=
  withText .pushNumber (Number.operand x)

/-- The instruction that pushes a count. -/
def count (n : Nat) : Instruction :=
  number (Number.ofNat n)

/-- The instruction that pushes a string. -/
def string (s : Text) : Instruction :=
  withText .pushString s

/-- The operand, empty if there is none. -/
def operandText (i : Instruction) : Text :=
  i.operand.getD Text.empty

/-- The instruction as a listing shows it. -/
def text (i : Instruction) : Text :=
  match i.operand with
  | none => i.op.name
  | some operand => i.op.name ++ " " ++ operand.quoted

/-- The distance that the operand denotes. -/
def distance? (i : Instruction) : Option Int :=
  Number.readWord? i.operandText

/-- What is said about an operand that denotes no distance. -/
def badDistance (i : Instruction) : Text :=
  i.op.name ++ ": bad jump operand " ++ i.operandText.quoted

end Instruction
end ScriptEngine
