import ScriptEngine.Number.Reading
import ScriptEngine.Program
import ScriptEngine.Syntax
import ScriptEngine.Value

/-!
# Decoded instructions

Before a run every operand is read once. An instruction then is an operation with operands of the
right type; an operand that cannot be read stops the run before it begins, an unknown opcode only
when it is executed. A program that was stopped so stays loaded, and closures can still be called in
it: the malformed operand then counts as zero or false, and those behind it were never read.
-/

namespace ScriptEngine

/-- An instruction with its operand read. -/
inductive Op where
  | push (v : Value)
  | buildList
  | buildDict
  | buildType (name : Text)
  | buildFunc (distance : Int)
  | jump (distance : Int)
  | jumpPeek (expected : Bool) (distance : Int)
  | jumpIfFalse (distance : Int)
  | call
  | dispatch (op : Text)
  | ret
  | getVar (name : Text)
  | getMember
  | assign (scope : Scope)
  | bump (name : Text) (up : Bool)
  | negate
  | not
  | stray (again : Bool)
  | scopeEnter
  | scopeExit
  | pop
  | unknown (byte : UInt8)
  deriving Inhabited

namespace Op

/-- What an operand stands for: the constant that is pushed, or the distance to jump. -/
structure Operand where
  constant : Value
  distance : Int

namespace Operand

/-- An operand that was not read. -/
def unread : Operand :=
  ⟨.empty, 0⟩

def ofConstant (v : Value) : Operand :=
  ⟨v, 0⟩

def ofDistance (d : Int) : Operand :=
  ⟨.empty, d⟩

/-- Reads the operand of an instruction; `none` if it is malformed. -/
def read? (i : Instruction) : Option Operand :=
  match i.op.operandKind with
  | .number => (Number.read? i.operandText).map fun x => ofConstant (.number x)
  | .string => some (ofConstant (.text i.operandText))
  | .boolean => (Number.readBool? i.operandText).map fun b => ofConstant (.boolean b)
  | .name => some (ofConstant (.type (TypeInfo.conversion i.operandText)))
  | .jump => i.distance?.map ofDistance
  | .none => some unread

/-- What is left of a malformed operand. -/
def remnant (i : Instruction) : Operand :=
  match i.op.operandKind with
  | .number => ofConstant (.number (Number.readOrZero i.operandText))
  | .boolean => ofConstant (.boolean false)
  | _ => unread

end Operand

/-- The operation of an instruction with what its operand stands for. -/
def ofOperand (i : Instruction) (o : Operand) : Op :=
  let name := i.operandText
  match i.op.operation? with
  | none => .unknown i.op.byte
  | some op =>
    match op with
    | .pushNumber | .pushString | .pushBoolean | .pushType => .push o.constant
    | .pushNull => .push .null
    | .pushEmpty => .push .empty
    | .buildList => .buildList
    | .buildDict => .buildDict
    | .buildType => .buildType name
    | .buildFunc => .buildFunc o.distance
    | .jump => .jump o.distance
    | .jumpIfFalsePeek => .jumpPeek false o.distance
    | .jumpIfTruePeek => .jumpPeek true o.distance
    | .jumpIfFalse => .jumpIfFalse o.distance
    | .call => .call
    | .dispatch => .dispatch name
    | .ret => .ret
    | .getVar => .getVar name
    | .getMember => .getMember
    | .assignLocal => .assign .inner
    | .assignNearest => .assign .nearest
    | .assignOuter => .assign .outer
    | .increment => .bump name true
    | .decrement => .bump name false
    | .negate => .negate
    | .not => .not
    | .leave => .stray false
    | .again => .stray true
    | .scopeEnter => .scopeEnter
    | .scopeExit => .scopeExit
    | .pop => .pop

/-- Decoded instructions, and the first one whose operand is malformed with its position. -/
structure Decoded where
  ops : Array Op
  flaw : Option (Nat × Instruction)

/-- Decodes instructions in order, the first one at position `n`. No operand behind a malformed one
is read. -/
def decodeAll : List Instruction → Nat → Array Op → Decoded
  | [], _, acc => ⟨acc, none⟩
  | i :: rest, n, acc =>
    match Operand.read? i with
    | some o => decodeAll rest (n + 1) (acc.push (ofOperand i o))
    | none =>
      let unread := rest.map fun i => ofOperand i .unread
      ⟨acc.push (ofOperand i (.remnant i)) ++ unread.toArray, some (n, i)⟩

/-- The decoded instructions of a program. -/
def ofProgram (p : Program) : Decoded :=
  decodeAll p.code.toList 0 #[]

end Op
end ScriptEngine
