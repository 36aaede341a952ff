import ScriptEngine.Machine.Run

/-!
# Executing programs

Executing a program starts from an empty stack and a new root frame, and always ends with a value
or with problems: also a crash of the engine is reported as a problem. Calling a value from outside
goes on from the state that the last run left behind.
-/

namespace ScriptEngine

/-- What a run ended with: its value, or its problems and the call history of the failure. -/
inductive Ending where
  | value (v : Value)
  | failed (problems : Array Problem) (trace : Trace)
  deriving Inhabited

namespace Machine

/-- The engine at the beginning of a program. Slots of the operand stack are used again. -/
def reset (m : Machine) (p : Program) : Machine :=
  match m with
  | ⟨⟨store, host, journal⟩, library, options, _, _, _, stack, _, _, _, _, _⟩ =>
    let (root, store) := store.newRoot options.rootName
    { world := ⟨store, host, journal⟩, library, options, program := some p, ops := #[], ip := 0,
      stack := stack.cut 0, frame := some root, root := some root, captured := #[], calls := #[],
      natives := #[] }

/-- Ends a run with a fault. -/
def endFaulty (m : Machine) (f : Fault) : Ending × Machine :=
  let located := m.locate f
  let tellAll := located.problems.foldl
    (fun m p => tell m .debug fun _ => "runtime problem: " ++ p.text) m
  (.failed located.problems located.trace, tellAll)

/-- The text up to the first end of a line. -/
def firstLine (t : Text) : Text :=
  match t.find? "\n" with
  | some i => t.take i
  | none => t

/-- Ends a run with a crash. Calls in progress are not unwound. -/
def endCrashed (m : Machine) (message : Text) : Ending × Machine :=
  let problem := m.problemAt m.ip .internal ("internal error: " ++ message)
  let told := m.tell .error fun m =>
    "internal error at " ++ Text.ofInt m.ip ++ ": " ++ firstLine message
  (.failed #[problem] #[], told)

/-- Ends a run with a value. -/
def endWell (m : Machine) (v : Value) : Ending × Machine :=
  (.value v, m.tell .debug fun m => "run finished with " ++ m.world.store.repr v)

/-- What is said about an operand that cannot be read. -/
def malformed (i : Instruction) : Text :=
  "malformed operand " ++ i.operandText.quoted ++ " for " ++ i.op.name

/-- Executes a program; `none` if it does not end within `fuel` transitions. -/
def execute (fuel : Nat) (m : Machine) (p : Program) : Option (Ending × Machine) :=
  let m := m.reset p
  let m :=
    if m.options.dump then m.tell .info fun _ => "program:\n" ++ p.listing else m
  let decoded := Op.ofProgram p
  let m := { m with ops := decoded.ops }
  match decoded.flaw with
  | some (i, instruction) =>
    some ({ m with ip := i }.endFaulty (.raised .internal (malformed instruction)))
  | none =>
    match State.run fuel ⟨m, [], .running⟩ with
    | none | some (.next _) => none
    | some (.finished (.ok v) m) => some (m.endWell v)
    | some (.finished (.error f) m) => some (m.endFaulty f)
    | some (.crashed message m) => some (m.endCrashed message)

/-- Calls a value from outside; `none` if the call does not end within `fuel` transitions. -/
def call (fuel : Nat) (m : Machine) (callee : Value) (args : List Value) :
    Option (Except Stop Value × Machine) :=
  match State.run fuel ⟨m, [], .invoking callee args⟩ with
  | none | some (.next _) => none
  | some (.finished (.ok v) m) => some (.ok v, m)
  | some (.finished (.error f) m) => some (.error (.fault f), m)
  | some (.crashed message m) => some (.error (.crash message), m)

/-!
## What a host can ask
-/

/-- The value of a name in the root frame of the last run. -/
def global? (m : Machine) (name : Text) : Option Value := do
  let root ← m.root
  let frame ← m.world.store.frame? root
  frame.vars.get? name

/-- The bindings of the root frame, sorted by the bytes of their names; none before any run. -/
def globals (m : Machine) : List (Text × Value) :=
  match m.root.bind m.world.store.frame? with
  | some frame => frame.vars.sorted
  | none => []

/-- The dict that collects what the last program exported. -/
def exports? (m : Machine) : Option Value :=
  match m.global? Key.exports with
  | some (.dict d) => some (.dict d)
  | _ => none

/-- How many values stand on the operand stack. -/
def depth (m : Machine) : Nat :=
  m.stack.height

/-- What a name calls from outside: a binding of the root frame first, else one of the library. -/
def callee? (m : Machine) (name : Text) : Option Value :=
  match m.global? name with
  | some v => some v
  | none => m.library.resolve name

end Machine
end ScriptEngine
