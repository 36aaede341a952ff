import ScriptEngine.Text

/-!
# Opcodes

An opcode is a byte. The assigned bytes are grouped by family; every other byte is unknown, which
matters only if it is executed.
-/

namespace ScriptEngine

/-- The assigned operations. -/
inductive Operation where
  | pushNumber
  | pushString
  | pushBoolean
  | pushNull
  | pushType
  | pushEmpty
  | buildList
  | buildDict
  | buildType
  | buildFunc
  | jump
  | jumpIfFalsePeek
  | jumpIfTruePeek
  | jumpIfFalse
  | call
  | dispatch
  | ret
  | getVar
  | getMember
  | assignLocal
  | assignNearest
  | assignOuter
  | increment
  | decrement
  | negate
  | not
  | leave
  | again
  | scopeEnter
  | scopeExit
  | pop
  deriving DecidableEq, Inhabited

/-- How the operand of an instruction is read. -/
inductive OperandKind where
  | none
  | number
  | string
  | boolean
  | name
  | jump
  deriving DecidableEq

/-- The number by which a tool knows an operand kind. -/
def OperandKind.index : OperandKind → Nat
  | .none => 0
  | .number => 1
  | .string => 2
  | .boolean => 3
  | .name => 4
  | .jump => 5

namespace Operation

/-- All operations in the order of their bytes. -/
def all : List Operation :=
  [pushNumber, pushString, pushBoolean, pushNull, pushType, pushEmpty, buildList, buildDict,
    buildType, buildFunc, jump, jumpIfFalsePeek, jumpIfTruePeek, jumpIfFalse, call, dispatch, ret,
    getVar, getMember, assignLocal, assignNearest, assignOuter, increment, decrement, negate, not,
    leave, again, scopeEnter, scopeExit, pop]

/-- The byte of an operation. -/
def byte : Operation → UInt8
  | pushNumber => 0x00
  | pushString => 0x01
  | pushBoolean => 0x02
  | pushNull => 0x03
  | pushType => 0x04
  | pushEmpty => 0x05
  | buildList => 0x10
  | buildDict => 0x11
  | buildType => 0x12
  | buildFunc => 0x13
  | jump => 0x20
  | jumpIfFalsePeek => 0x21
  | jumpIfTruePeek => 0x22
  | jumpIfFalse => 0x23
  | call => 0x30
  | dispatch => 0x31
  | ret => 0x32
  | getVar => 0x40
  | getMember => 0x41
  | assignLocal => 0x50
  | assignNearest => 0x51
  | assignOuter => 0x52
  | increment => 0x60
  | decrement => 0x61
  | negate => 0x62
  | not => 0x63
  | leave => 0x70
  | again => 0x71
  | scopeEnter => 0x80
  | scopeExit => 0x81
  | pop => 0x82

/-- The name of an operation in a listing. -/
def name : Operation → String
  | pushNumber => "PUSH_NUMBER"
  | pushString => "PUSH_STRING"
  | pushBoolean => "PUSH_BOOLEAN"
  | pushNull => "PUSH_NULL"
  | pushType => "PUSH_TYPE"
  | pushEmpty => "PUSH_EMPTY"
  | buildList => "BUILD_LIST"
  | buildDict => "BUILD_DICT"
  | buildType => "BUILD_TYPE"
  | buildFunc => "BUILD_FUNC"
  | jump => "JUMP"
  | jumpIfFalsePeek => "JUMP_IF_FALSE_PEEK"
  | jumpIfTruePeek => "JUMP_IF_TRUE_PEEK"
  | jumpIfFalse => "JUMP_IF_FALSE"
  | call => "CALL"
  | dispatch => "DISPATCH"
  | ret => "RETURN"
  | getVar => "GET_VAR"
  | getMember => "GET_MEMBER"
  | assignLocal => "ASSIGN_LOCAL"
  | assignNearest => "ASSIGN_NEAREST"
  | assignOuter => "ASSIGN_OUTER"
  | increment => "INCREMENT"
  | decrement => "DECREMENT"
  | negate => "NEGATE"
  | not => "NOT"
  | leave => "BREAK"
  | again => "CONTINUE"
  | scopeEnter => "SCOPE_ENTER"
  | scopeExit => "SCOPE_EXIT"
  | pop => "POP"

/-- How the operand of an operation is read. -/
def operandKind : Operation → OperandKind
  | pushNumber => .number
  | pushString => .string
  | pushBoolean => .boolean
  | pushType | buildType | dispatch | getVar | increment | decrement => .name
  | buildFunc | jump | jumpIfFalsePeek | jumpIfTruePeek | jumpIfFalse => .jump
  | _ => .none

/-- The operation with a given byte. -/
def ofByte? (b : UInt8) : Option Operation :=
  all.find? fun op => op.byte == b

/-- The operation with a given name. -/
def ofName? (name : Text) : Option Operation :=
  all.find? fun op => Text.ofString op.name == name

theorem ofByte?_byte (op : Operation) : ofByte? op.byte = some op := by
  cases op <;> rfl

end Operation

/-- A byte in the place of an operation. -/
structure Opcode where
  byte : UInt8
  deriving DecidableEq, Inhabited

namespace Opcode

instance : Coe Operation Opcode :=
  ⟨fun op => ⟨op.byte⟩⟩

/-- The operation that a byte is assigned to. -/
def operation? (op : Opcode) : Option Operation :=
  Operation.ofByte? op.byte

/-- Upper-case hexadecimal digits of a byte. -/
def hexByte (b : UInt8) : String :=
  let digit (n : Nat) : Char := if n < 10 then Char.ofNat (48 + n) else Char.ofNat (55 + n)
  String.ofList [digit (b.toNat / 16), digit (b.toNat % 16)]

/-- The name of an opcode in a listing. -/
def name (op : Opcode) : String :=
  match op.operation? with
  | some o => o.name
  | none => "UNKNOWN(0x" ++ hexByte op.byte ++ ")"

/-- How the operand is read; an unknown opcode has none. -/
def operandKind (op : Opcode) : OperandKind :=
  match op.operation? with
  | some o => o.operandKind
  | none => .none

/-- Whether the byte lies in the family of jumps. -/
def isJump (op : Opcode) : Bool :=
  Operation.jump.byte ≤ op.byte && op.byte ≤ Operation.jumpIfFalse.byte

/-- Whether the byte lies in the family of assignments. -/
def isAssign (op : Opcode) : Bool :=
  Operation.assignLocal.byte ≤ op.byte && op.byte ≤ Operation.assignOuter.byte

end Opcode
end ScriptEngine
