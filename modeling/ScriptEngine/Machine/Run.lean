import ScriptEngine.Machine.Step

/-!
# Running

The engine never calls itself. What waits for a nested run, a native's callback, a constructor or a
conversion stands on a list of pending work, and every transition either executes one instruction,
starts the call that was asked for, or hands an outcome to the work on top of that list. A run is
the iteration of this transition.
-/

namespace ScriptEngine

/-- Work that waits for an outcome. -/
inductive Pending where
  /-- A nested run of a closure; the snapshot was taken before it was entered. -/
  | nested (snapshot : Snapshot)
  /-- A native that asked for a call, and how it goes on. -/
  | native (n : NativeInfo) (snapshot : Snapshot) (resume : Except Fault Value → World → Action)
  /-- A constructor, whose result is the instance it was given. -/
  | construct (i : InstanceId)
  /-- A conversion method. -/
  | convert
  /-- The instruction that called a native or a type. -/
  | instruction

/-- What the engine does next. -/
inductive Mode where
  /-- Execute the current instruction. -/
  | running
  /-- Call a value on behalf of the pending work on top. -/
  | invoking (callee : Value) (args : List Value)
  /-- Hand an outcome to the pending work on top. -/
  | delivering (outcome : Except Fault Value)

/-- The whole state of a run. -/
structure State where
  machine : Machine
  pending : List Pending
  mode : Mode

/-- The result of one transition. -/
inductive Advance where
  | next (s : State)
  | finished (outcome : Except Fault Value) (m : Machine)
  | crashed (message : Text) (m : Machine)

namespace State

/-- Hands over an outcome. -/
def deliver (m : Machine) (pending : List Pending) (outcome : Except Fault Value) : Advance :=
  .next ⟨m, pending, .delivering outcome⟩

/-- Hands over a fault that was not located. -/
def refuse (m : Machine) (pending : List Pending) (f : Failure) (message : Text) : Advance :=
  deliver m pending (.error (.raised f message))

/-!
## Executing instructions
-/

/-- One line of an instruction trace. -/
def traceLine (m : Machine) : Text :=
  let ip := Text.ofInt m.ip
  let digits := Text.concat (List.replicate (4 - ip.size) "0") ++ ip
  let shown :=
    match m.program.bind fun p => p.code[m.ip.toNat]? with
    | some i => i.text
    | none => Text.empty
  digits ++ " " ++ shown.padRight 40 ++ " depth=" ++ Text.ofNat m.stack.height

/-- What follows an instruction that did not stop. -/
def proceed (pending : List Pending) (n : Exec.Next) (m : Machine) : Advance :=
  match n with
  | .next => .next ⟨{ m with ip := m.ip + 1 }, pending, .running⟩
  | .skip d => .next ⟨{ m with ip := Number.wrapWord (m.ip + 1 + d) }, pending, .running⟩
  | .stay => .next ⟨m, pending, .running⟩
  | .call callee args => .next ⟨m, .instruction :: pending, .invoking callee args⟩
  | .done v => deliver m pending (.ok v)

/-- Executes the current instruction, or ends the run at the end of the program. -/
def execute (m : Machine) (pending : List Pending) : Advance :=
  match m.program with
  | none => .crashed Exec.absent m
  | some p =>
    if (p.size : Int) ≤ m.ip then
      if m.calls.isEmpty then deliver m pending (.ok .null)
      else
        refuse m pending .internal "execution ran past the end of the program inside a call"
    else if m.ip < 0 then
      .crashed ("runtime error: index out of range [" ++ Text.ofInt m.ip ++ "]") m
    else
      let m := if m.options.trace then m.tell .debug traceLine else m
      match m.ops[m.ip.toNat]? with
      | none => .crashed Exec.absent m
      | some op =>
        match Exec.step op m with
        | .ok n m => proceed pending n m
        | .error (.fault f) m => deliver m pending (.error (m.locate f))
        | .error (.crash message) m => .crashed message m

/-!
## Starting calls
-/

/-- The fault of a native: what was located before gains a diagnostic for the native, anything
else is located at the instruction that called the native, which heads the trace. -/
def nativeFault (m : Machine) (n : NativeInfo) (f : Fault) : Fault :=
  let name := Key.display n.name
  match f with
  | .located failure message problems trace =>
    let text :=
      match problems[0]? with
      | some p => name ++ " failed: " ++ p.message
      | none => name ++ " failed"
    .located failure message (problems.push (m.problemAt m.ip .hostCall text)) trace
  | f =>
    let (failure, message) :=
      match f with
      | .foreign t => (Failure.hostCall, name ++ ": " ++ t)
      | f => (f.failure, f.message)
    .located failure message #[m.problemAt m.ip failure message]
      (#[⟨name, none⟩] ++ m.traceAt m.ip)

/-- Ends a native with a fault: the engine is taken back to where the native was called. -/
def failNative (m : Machine) (pending : List Pending) (n : NativeInfo) (snapshot : Snapshot)
    (f : Fault) : Advance :=
  let m := { m with natives := m.natives.pop }
  if m.covers snapshot then
    let m := m.restore snapshot
    let located := nativeFault m n f
    let m :=
      match f with
      | .located .. => m
      | _ => m.tell .debug fun _ => "native " ++ n.name ++ " failed: " ++ located.message
    deliver m pending (.error located)
  else .crashed Machine.restoreCrash m

/-- Follows a native until it ends or asks for a call. The engine has no world meanwhile. -/
def follow (m : Machine) (pending : List Pending) (n : NativeInfo) (snapshot : Snapshot) :
    Action → Advance
  | .done result w =>
    deliver { m with world := w, natives := m.natives.pop } pending (.ok (result.getD .null))
  | .fail f w => failNative { m with world := w } pending n snapshot f
  | .crash message w => .crashed message { m with world := w }
  | .invoke callee args w resume =>
    .next ⟨{ m with world := w }, .native n snapshot resume :: pending, .invoking callee args⟩
  | .depth w resume => follow m pending n snapshot (resume m.stack.height w)
  | .save w resume => follow m pending n snapshot (resume m.snapshot w)
  | .restore s w resume =>
    if m.covers s then follow (m.restore s) pending n snapshot (resume w)
    else .crashed Machine.restoreCrash { m with world := w }

/-- Follows what a native does in the engine's world. -/
def handOver (m : Machine) (pending : List Pending) (n : NativeInfo) (snapshot : Snapshot)
    (action : World → Action) : Advance :=
  let world := m.world
  let m := { m with world := default }
  follow m pending n snapshot (action world)

/-- Lets a native work on arguments whose number was checked. -/
def enterNative (m : Machine) (pending : List Pending) (n : NativeInfo) (all : List Value) :
    Advance :=
  if nativeLimit ≤ m.natives.size then
    refuse m pending .callDepth
      ("native call depth exceeds " ++ Text.ofNat nativeLimit ++ " in " ++ Key.display n.name)
  else
    let snapshot := m.snapshot
    let behaviour := m.library.behaviour n all
    handOver { m with natives := m.natives.push n.name } pending n snapshot behaviour

/-- Starts a native: arguments and depth are checked before the engine lets it work. -/
def startNative (m : Machine) (pending : List Pending) (n : NativeInfo) (receiver : Option Value)
    (args : List Value) : Advance :=
  let all := Exec.withReceiver receiver args
  match n.arity with
  | some arity =>
    if all.length != arity then
      let expected : Int := arity - (if receiver.isSome then 1 else 0)
      refuse m pending .arity (Exec.wrongArity (Key.display n.name) expected args.length)
    else enterNative m pending n all
  | none => enterNative m pending n all

/-- Has a constructor or conversion method called. It is not a native, so an empty name takes its
place among the running natives. -/
def manage (m : Machine) (pending : List Pending) (work : Pending) (callee : Value)
    (args : List Value) : Advance :=
  .next ⟨{ m with natives := m.natives.push Text.empty }, work :: pending, .invoking callee args⟩

/-- Converts a value that has no conversion method of its own. -/
def convertValue (m : Machine) (pending : List Pending) (v : Value) (target : Text) : Advance :=
  match Exec.effect (Native.convert v target) m with
  | .ok v m => deliver m pending (.ok v)
  | .error (.fault f) m => deliver m pending (.error f)
  | .error (.crash message) m => .crashed message m

/-- Calls a conversion type. -/
def startConversion (m : Machine) (pending : List Pending) (t : TypeInfo) (args : List Value) :
    Advance :=
  match args with
  | [v] =>
    match m.resolve (Key.join ("to" ++ t.name) (m.world.store.typeName v)) with
    | some method => manage m pending .convert method [v]
    | none => convertValue m pending v t.name
  | args =>
    refuse m pending .arity ("conversion to " ++ t.name ++ " expects 1 argument, got "
      ++ Text.ofNat args.length)

/-- Calls a record type: a new instance is given to the constructor if there is one, else its
fields are filled with the arguments. -/
def startConstruction (m : Machine) (pending : List Pending) (t : TypeInfo)
    (args : List Value) : Advance :=
  match Exec.onStore (fun s => s.newInstance t) m with
  | .error _ m => .crashed Exec.absent m
  | .ok i m =>
    match m.resolve (Key.join "new" t.name) with
    | some constructor => manage m pending (.construct i) constructor (.inst i :: args)
    | none =>
      if args.isEmpty then deliver m pending (.ok (.inst i))
      else if args.length == t.fields.length then
        match Exec.onStore (fun s => ((), fill s i (t.fields.zip args))) m with
        | .error _ m => .crashed Exec.absent m
        | .ok _ m => deliver m pending (.ok (.inst i))
      else
        refuse m pending .arity (t.name ++ " expects 0 or " ++ Text.ofNat t.fields.length
          ++ " arguments, got " ++ Text.ofNat args.length)
where
  fill (s : Store) (i : InstanceId) (pairs : List (Text × Value)) : Store :=
    pairs.foldl (fun s (f, v) => s.setField i f v) s

/-- Enters a closure as a nested run. -/
def startNested (m : Machine) (pending : List Pending) (c : Closure) (args : List Value) :
    Advance :=
  let snapshot := m.snapshot
  let native := m.natives.back?.getD Text.empty
  match Exec.enterClosure c args true native m with
  | .ok _ m => .next ⟨m, .nested snapshot :: pending, .running⟩
  | .error (.fault f) m =>
    if m.covers snapshot then deliver (m.restore snapshot) pending (.error f)
    else .crashed Machine.restoreCrash m
  | .error (.crash message) m => .crashed message m

/-- Calls a value on behalf of the pending work on top. -/
def invoke (m : Machine) (pending : List Pending) (callee : Value) (args : List Value) : Advance :=
  match callee with
  | .closure c =>
    match m.world.store.closure? c with
    | some closure => startNested m pending closure args
    | none => .crashed Exec.absent m
  | .native n => startNative m pending n none args
  | .bound n receiver => startNative m pending n (some receiver) args
  | .type t => if t.record then startConstruction m pending t args
    else startConversion m pending t args
  | v => refuse m pending .notCallable (m.world.store.typeName v ++ " is not callable")

/-!
## Handing over outcomes
-/

/-- Ends a nested run. -/
def endNested (m : Machine) (pending : List Pending) (snapshot : Snapshot)
    (outcome : Except Fault Value) : Advance :=
  match outcome with
  | .ok v => deliver { m with ip := snapshot.ip } pending (.ok v)
  | .error f =>
    if m.covers snapshot then deliver (m.restore snapshot) pending (.error f)
    else .crashed Machine.restoreCrash m

/-- Ends the call of an instruction: the result is pushed, a fault is located and ends the run. -/
def endInstruction (m : Machine) (pending : List Pending) (outcome : Except Fault Value) :
    Advance :=
  match outcome with
  | .ok v => .next ⟨{ m with stack := m.stack.push v, ip := m.ip + 1 }, pending, .running⟩
  | .error f => deliver m pending (.error (m.locate f))

/-- Hands an outcome to the pending work on top; without any, the run is over. -/
def handOut (m : Machine) (pending : List Pending) (outcome : Except Fault Value) : Advance :=
  match pending with
  | [] => .finished outcome m
  | .nested snapshot :: rest => endNested m rest snapshot outcome
  | .native n snapshot resume :: rest => handOver m rest n snapshot (resume outcome)
  | .construct i :: rest =>
    deliver { m with natives := m.natives.pop } rest (outcome.map fun _ => .inst i)
  | .convert :: rest => deliver { m with natives := m.natives.pop } rest outcome
  | .instruction :: rest => endInstruction m rest outcome

/-- One transition. -/
def advance (s : State) : Advance :=
  match s with
  | ⟨m, pending, .running⟩ => execute m pending
  | ⟨m, pending, .invoking callee args⟩ => invoke m pending callee args
  | ⟨m, pending, .delivering outcome⟩ => handOut m pending outcome

/-- Iterates the transition at most `fuel` times; `none` if that is not enough. -/
def run : Nat → State → Option Advance
  | 0, _ => none
  | fuel + 1, s =>
    match advance s with
    | .next s => run fuel s
    | ended => some ended

end State
end ScriptEngine
