import ScriptEngine.Machine.Member

/-!
# Calls and returns

A closure is entered by pushing a record and a boundary frame, in which its parameters are bound;
returning undoes both. Natives, conversions and constructors are not entered: the engine starts
them and waits for their outcome.
-/

namespace ScriptEngine
namespace Exec

/-- The type that guards a parameter, from the value that was given for it. -/
def guardOf (name : Text) (v : Value) : Exec (Option TypeInfo) :=
  match v with
  | .null => pure none
  | .type t => pure (some t)
  | v => do
    let t ← typeName v
    raise .typeMismatch ("guard for parameter " ++ name.quoted ++ " is " ++ t ++ ", not a Type")

/-- Pops names and guards of `n` parameters. -/
def popParams : Nat → List Parameter → Exec (List Parameter)
  | 0, acc => pure acc.reverse
  | n + 1, acc => do
    match ← pop with
    | .text name => do
      let g ← pop
      let guard ← guardOf name g
      popParams n (⟨name, guard⟩ :: acc)
    | _ => crash "BUILD_FUNC parameter name is not a String"

/-- Builds a closure whose body begins behind the current instruction. -/
def buildClosure : Exec Value := do
  let n ← popCount
  let n ← checkCount n
  let params ← popParams n []
  let ip ← reads (·.ip)
  let frame ← reads (·.frame)
  onStore fun s =>
    let (id, s) := s.newClosure ⟨ip + 1, frame, params, Text.empty, none⟩
    (.closure id, s)

/-- Checks the arguments of a closure against the guards of its parameters. -/
def checkGuards (name : Text) : List Parameter → List Value → Exec Unit
  | p :: params, v :: args => do
    match p.guard with
    | some g => do
      let t ← typeName v
      if t == g.name then checkGuards name params args
      else
        raise .typeMismatch (name ++ ": parameter " ++ p.name.quoted ++ " expects " ++ g.name
          ++ ", got " ++ t)
    | none => checkGuards name params args
  | _, _ => pure ()

/-- What is said about a wrong number of arguments. -/
def wrongArity (name : Text) (expected : Int) (given : Nat) : Text :=
  name ++ " expects " ++ Text.ofInt expected ++ " arguments, got " ++ Text.ofNat given

/-- The arguments with the receiver in front. -/
def withReceiver (receiver : Option Value) (args : List Value) : List Value :=
  match receiver with
  | some r => r :: args
  | none => args

/-- Enters a closure: checks arguments and depth, records the return point and moves to the body.
`native` names the native that makes the call, if one does. -/
def enterClosure (c : Closure) (args : List Value) (reentry : Bool) (native : Text) :
    Exec Unit := do
  let name := Store.closureName c
  let all := withReceiver c.receiver args
  let expected : Int := c.params.length - (if c.receiver.isSome then 1 else 0)
  if all.length != c.params.length then raise .arity (wrongArity name expected args.length)
  checkGuards name c.params all
  let limit ← reads (·.options.maxDepth)
  if limit ≤ (← reads (·.calls.size)) then
    raise .callDepth ("call depth exceeds " ++ Text.ofNat limit ++ " in " ++ name)
  let ip ← reads (·.ip)
  let site ← reads fun m => m.spanAt m.ip
  let height ← reads (·.stack.height)
  let caller ← reads (·.frame)
  let vars := Table.ofList (List.zip (c.params.map (·.name)) all)
  let frame ← onStore fun s => s.newFrame ⟨vars, c.frame, .boundary name site caller native⟩
  modify fun m =>
    { m with
      calls := m.calls.push ⟨ip, height, reentry⟩
      captured := m.captured.push c.frame
      frame := some frame
      ip := c.entry }
  tell fun m => "call " ++ name ++ " (depth " ++ Text.ofNat m.calls.size ++ ")"

/-- What happens after an instruction. -/
inductive Next where
  /-- On to the instruction behind it. -/
  | next
  /-- On to the instruction at a distance from the one behind it. -/
  | skip (distance : Int)
  /-- On at the place that was set. -/
  | stay
  /-- A native or a type is to be called, and its result pushed. -/
  | call (callee : Value) (args : List Value)
  /-- The run is over. -/
  | done (v : Value)
  deriving Inhabited

/-- Calls a value with copied arguments. -/
def callValue (callee : Value) (args : List Value) : Exec Next := do
  match callee with
  | .closure c =>
    match ← reads fun m => m.world.store.closure? c with
    | none => crash absent
    | some closure => do
      enterClosure closure args false Text.empty
      pure .stay
  | .native _ | .bound .. | .type _ => pure (.call callee args)
  | v => do
    let t ← typeName v
    raise .notCallable (t ++ " is not callable")

/-- What an operator stands for: the method of the first operand's type, else a function of that
name in the library. -/
def operator (op : Text) (first : Value) : Exec (Option Value) :=
  reads fun m =>
    let name := Key.operatorMethod op
    match m.resolve (Key.join name (m.world.store.typeName first)) with
    | some v => some v
    | none => m.library.resolve name

/-- Applies an operator to the operands on the stack. -/
def dispatch (op : Text) : Exec Next := do
  let args ← popArgs
  match args with
  | [] => crash "DISPATCH without operands"
  | first :: rest =>
    match ← operator op first with
    | some callee => callValue callee args
    | none => do
      let t ← typeName first
      match rest with
      | [second] => do
        let u ← typeName second
        raise .typeMismatch ("cannot apply " ++ op ++ " to " ++ t ++ " and " ++ u)
      | _ => raise .typeMismatch ("cannot apply " ++ op ++ " to " ++ t)

/-- Returns the top of the stack to the caller; without a caller the run is over. -/
def ret : Exec Next := do
  let v ← pop
  match ← reads fun m => m.calls.back? with
  | none => pure (.done v)
  | some record => do
    let boundary ← reads fun m =>
      (m.world.store.boundary m.frame).bind fun b => m.world.store.frame? b
    modify fun m => { m with calls := m.calls.pop }
    match boundary with
    | none => crash absent
    | some b => do
      tell fun _ => "return from " ++ b.name
      modify fun m =>
        { m with
          frame := b.caller
          captured := m.captured.pop
          stack := m.stack.cut record.depth }
      if record.reentry then pure (.done v)
      else
        push v
        modify fun m => { m with ip := record.callIp }
        pure .next

end Exec
end ScriptEngine
