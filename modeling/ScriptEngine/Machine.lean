import ScriptEngine.Machine.Op
import ScriptEngine.Machine.Stack
import ScriptEngine.Native.Library

/-!
# The engine's state

The state holds the program and the place in it, the operand stack, the current and the root frame,
and three stacks that describe the calls in progress: their records, the frames their closures were
built in, and the natives that are running. Operations on the state keep it also when they stop
with a fault or a crash.
-/

namespace ScriptEngine

/-- What a run can be told. -/
structure Options where
  trace : Bool
  dump : Bool
  rootName : Text
  maxDepth : Nat
  deriving DecidableEq, Inhabited

namespace Options

/-- The call depth limit where none is set. -/
def defaultDepth : Nat :=
  100000

/-- The name of the root frame where none is set. -/
def defaultRoot : Text :=
  "<main>"

/-- Options as given by a host: an empty root name or a depth that is not positive stands for the
default. -/
def ofHost (trace dump : Bool) (rootName : Text) (maxDepth : Int) : Options :=
  ⟨trace, dump, if rootName.isEmpty then defaultRoot else rootName,
    if maxDepth ≤ 0 then defaultDepth else maxDepth.toNat⟩

end Options

/-- How many natives may run inside each other. -/
def nativeLimit : Nat :=
  10000

/-- What a call of a closure leaves behind for its return. -/
structure CallRecord where
  callIp : Int
  depth : Nat
  reentry : Bool
  deriving DecidableEq, Inhabited

/-- The state of the engine. -/
structure Machine where
  world : World
  library : Library
  options : Options
  program : Option Program
  ops : Array Op
  ip : Int
  stack : OperandStack
  frame : Option FrameId
  root : Option FrameId
  captured : Array (Option FrameId)
  calls : Array CallRecord
  natives : Array Text
  deriving Inhabited

namespace Machine

/-- An engine that has not run anything. -/
def new (world : World) (library : Library) (options : Options) : Machine :=
  { world, library, options, program := none, ops := #[], ip := 0, stack := .empty, frame := none,
    root := none, captured := #[], calls := #[], natives := #[] }

/-!
## Diagnostics
-/

/-- The most specific debug entry around an instruction. -/
def entryAt (m : Machine) (ip : Int) : Option DebugEntry :=
  match m.program with
  | none => none
  | some p => p.debug.lookup ip

/-- The span of an instruction. -/
def spanAt (m : Machine) (ip : Int) : Option Span :=
  (m.entryAt ip).map (·.span)

/-- The diagnostic of a failure at an instruction. -/
def problemAt (m : Machine) (ip : Int) (f : Failure) (message : Text) : Problem :=
  match m.entryAt ip with
  | none => f.problem Text.empty none message
  | some e => f.problem e.kind (some e.span) message

/-- Lists the calls from a boundary frame outward, at most `fuel` of them. -/
def traceFrom (s : Store) : Nat → Option FrameId → Option Span → Trace → Trace
  | 0, _, _, acc => acc
  | _, none, _, acc => acc
  | fuel + 1, some b, site, acc =>
    match s.frame? b with
    | none => acc
    | some fr =>
      let acc := acc.push ⟨Key.display fr.name, site⟩
      let acc := if fr.native.isEmpty then acc else acc.push ⟨Key.display fr.native, none⟩
      match fr.caller with
      | none => acc
      | some caller => traceFrom s fuel (s.boundary (some caller)) fr.site acc

/-- The call history of an instruction, innermost call first; calls made by natives name the
native behind them. -/
def traceAt (m : Machine) (ip : Int) : Trace :=
  let s := m.world.store
  traceFrom s (s.frames.size + 1) (s.boundary m.frame) (m.spanAt ip) #[]

/-- Locates a fault at the current instruction, unless it was located before. -/
def locate (m : Machine) (f : Fault) : Fault :=
  match f with
  | .located .. => f
  | f =>
    .located f.failure f.message #[m.problemAt m.ip f.failure f.message] (m.traceAt m.ip)

/-!
## Messages
-/

/-- Tells the journal something, which is put into words only if someone listens. -/
def tell (m : Machine) (level : Level) (text : Machine → Text) : Machine :=
  if m.world.journal.recording then
    let message := ⟨level, .engine, text m⟩
    { m with world := { m.world with journal := m.world.journal.add message } }
  else m

/-!
## Snapshots
-/

/-- The depths of the stacks. -/
def snapshot (m : Machine) : Snapshot :=
  ⟨m.stack.height, m.frame, m.captured.size, m.calls.size, m.natives.size, m.ip⟩

/-- Whether nothing was popped that was there when the snapshot was taken. -/
def covers (m : Machine) (s : Snapshot) : Bool :=
  s.stack ≤ m.stack.height && s.captured ≤ m.captured.size && s.calls ≤ m.calls.size

/-- Drops everything that was pushed since a snapshot. -/
def restore (m : Machine) (s : Snapshot) : Machine :=
  { m with
    stack := m.stack.cut s.stack
    frame := s.frame
    captured := m.captured.shrink s.captured
    calls := m.calls.shrink s.calls
    natives := m.natives.shrink s.natives
    ip := s.ip }

/-- Why a snapshot cannot be restored. -/
def restoreCrash : Text :=
  "restore below a snapshot: engine state was popped past a call in flight"

/-- The value that a name is bound to, in the frames first and in the library after them. -/
def resolve (m : Machine) (name : Text) : Option Value :=
  match m.world.store.lookup m.frame name false with
  | some (v, _) => some v
  | none => m.library.resolve name

end Machine

/-- Work of the engine: it may stop, and its state is kept in any case. -/
abbrev Exec := EStateM Stop Machine

namespace Exec

/-- Raises a failure. -/
def raise {α : Type} (f : Failure) (message : Text) : Exec α :=
  throw (.fault (.raised f message))

def crash {α : Type} (message : Text) : Exec α :=
  throw (.crash message)

/-- What is said when something that must be there is not. -/
def absent : Text :=
  "runtime error: invalid memory address or nil pointer dereference"

/-- Reads something off the state. -/
def reads {α : Type} (f : Machine → α) : Exec α :=
  fun m => let a := f m; .ok a m

/-- Changes the store and gives back something about it. -/
def onStore {α : Type} (f : Store → α × Store) : Exec α :=
  fun ⟨⟨store, host, journal⟩, l, o, p, ops, ip, st, fr, rt, cs, ca, na⟩ =>
    match f store with
    | (a, store) => .ok a ⟨⟨store, host, journal⟩, l, o, p, ops, ip, st, fr, rt, cs, ca, na⟩

/-- Runs an effect on the world. -/
def effect {α : Type} (e : Effect α) : Exec α :=
  fun ⟨world, l, o, p, ops, ip, st, fr, rt, cs, ca, na⟩ =>
    match e world with
    | .ok a world => .ok a ⟨world, l, o, p, ops, ip, st, fr, rt, cs, ca, na⟩
    | .error stop world => .error stop ⟨world, l, o, p, ops, ip, st, fr, rt, cs, ca, na⟩

/-- Tells the journal something at debug level. -/
def tell (text : Machine → Text) : Exec Unit :=
  modify fun m => m.tell .debug text

def push (v : Value) : Exec Unit :=
  modify fun m => { m with stack := m.stack.push v }

/-- What is said when the stack is empty. -/
def underflow : Text :=
  "operand stack underflow"

def top : Exec Value := fun m =>
  match m.stack.top? with
  | some v => .ok v m
  | none => .error (.crash underflow) m

def pop : Exec Value := fun m =>
  match m.stack.top? with
  | some v => .ok v { m with stack := m.stack.drop }
  | none => .error (.crash underflow) m

/-- A copy of a value: scalars as they are, objects under a new handle. -/
def copy (v : Value) : Exec Value :=
  match v with
  | .list _ | .dict _ | .closure _ | .inst _ => onStore fun s => s.copy v
  | v => pure v

/-- The type name of a value. -/
def typeName (v : Value) : Exec Text :=
  reads fun m => m.world.store.typeName v

/-- Pops a count. -/
def popCount : Exec Int := do
  match ← pop with
  | .number x =>
    if x < 0 then crash "count operand is not a non-negative Number"
    else pure (Number.toWord x)
  | _ => crash "count operand is not a non-negative Number"

/-- Refuses a count that no memory could hold. -/
def checkCount (n : Int) : Exec Nat :=
  if n < 0 || 0x100000000000 < n then crash "runtime error: makeslice: len out of range"
  else pure n.toNat

/-- Pops and copies `n` values; the one popped last comes first. -/
def popCopies : Nat → List Value → Exec (List Value)
  | 0, acc => pure acc
  | n + 1, acc => do
    let v ← pop
    let v ← copy v
    popCopies n (v :: acc)

/-- Pops a count and that many arguments, which stand in source order on the stack. -/
def popArgs : Exec (List Value) := do
  let n ← popCount
  let n ← checkCount n
  popCopies n []

/-- The truth value of a condition. -/
def condition (v : Value) : Exec Bool :=
  match v with
  | .boolean b => pure b
  | v => do
    let t ← typeName v
    raise .notBoolean ("expected Boolean, got " ++ t)

end Exec
end ScriptEngine
