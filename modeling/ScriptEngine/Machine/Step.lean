import ScriptEngine.Machine.Call

/-!
# One instruction
-/

namespace ScriptEngine
namespace Exec

/-- Pops `n` values for a list, the top first. -/
def popItems : Nat → Array Value → Exec (Array Value)
  | 0, acc => pure acc
  | n + 1, acc => do
    let v ← pop
    let v ← copy v
    popItems n (acc.push v)

/-- Pops `n` pairs of key and value, the top first. -/
def popEntries : Nat → Table Value → Exec (Table Value)
  | 0, acc => pure acc
  | n + 1, acc => do
    let key ← pop
    let v ← pop
    let v ← copy v
    match key with
    | .text k => popEntries n (acc.insert k v)
    | _ => raise .typeMismatch "dict keys must be String"

/-- Pops `n` field names, the top first. -/
def popFields : Nat → List Text → Exec (List Text)
  | 0, acc => pure acc.reverse
  | n + 1, acc => do
    match ← pop with
    | .text name => popFields n (name :: acc)
    | _ => crash "BUILD_TYPE field name is not a String"

/-- Executes one decoded instruction. -/
def step (op : Op) : Exec Next := do
  match op with
  | .push v =>
    push v
    pure .next
  | .buildList => do
    let n ← popCount
    let n ← checkCount n
    let items ← popItems n #[]
    let id ← onStore fun s => s.newList items
    push (.list id)
    pure .next
  | .buildDict => do
    let n ← popCount
    let entries ← popEntries n.toNat Table.empty
    let id ← onStore fun s => s.newDict entries
    push (.dict id)
    pure .next
  | .buildType name => do
    let n ← popCount
    let n ← checkCount n
    let fields ← popFields n []
    push (.type (TypeInfo.ofFields name fields))
    pure .next
  | .buildFunc distance => do
    let c ← buildClosure
    push c
    pure (.skip distance)
  | .jump distance => pure (.skip distance)
  | .jumpPeek expected distance => do
    let v ← top
    let b ← condition v
    pure (if b == expected then .skip distance else .next)
  | .jumpIfFalse distance => do
    let v ← pop
    let b ← condition v
    pure (if b then .next else .skip distance)
  | .call => do
    let callee ← pop
    let args ← popArgs
    callValue callee args
  | .dispatch op => dispatch op
  | .ret => ret
  | .getVar name => do
    match ← reads fun m => m.resolve name with
    | some v =>
      push v
      pure .next
    | none => raise .unbound (unbound name)
  | .getMember => do
    let key ← pop
    let object ← pop
    let v ← member object key
    push v
    pure .next
  | .assign scope =>
    assign scope
    pure .next
  | .bump name up =>
    bump name up
    pure .next
  | .negate => do
    match ← pop with
    | .number x =>
      push (.number (-x))
      pure .next
    | v => do
      let t ← typeName v
      raise .invalidOperand ("cannot negate " ++ t)
  | .not => do
    let v ← pop
    let b ← condition v
    push (.boolean (!b))
    pure .next
  | .stray again =>
    raise .outsideLoop ((if again then "continue" else "break") ++ " used outside a loop")
  | .scopeEnter => do
    let frame ← reads (·.frame)
    let id ← onStore fun s => s.newBlock frame
    modify fun m => { m with frame := some id }
    pure .next
  | .scopeExit => do
    match ← reads fun m => m.frame.bind fun f => m.world.store.frame? f with
    | none => crash absent
    | some fr =>
      if fr.isBoundary then crash "SCOPE_EXIT without a matching block frame"
      else
        modify fun m => { m with frame := fr.outer }
        pure .next
  | .pop => do
    let _ ← pop
    pure .next
  | .unknown b => crash ("unknown opcode 0x" ++ Opcode.hexByte b)

end Exec
end ScriptEngine
