import ScriptEngine.Compiler.Generate
import ScriptEngine.Form
import ScriptEngine.Machine.Execute
import ScriptEngine.Native.Embedding

/-!
# Sessions

A session is one engine with its native table, host and linker. Programs are compiled and executed
one after the other; the objects of earlier runs stay alive, and the linker remembers whether
exports were opened.
-/

namespace ScriptEngine

structure Session where
  machine : Machine
  linker : Linker
  exporting : Bool
  deriving Inhabited

namespace Session

/-- A new session. -/
def new (library : Library) (host : Host) (linker : Linker) (options : Options)
    (recording : Bool) : Session :=
  ⟨Machine.new ⟨Store.empty, host, Journal.new recording⟩ library options, linker, false⟩

/-- The library of a session: the language's own natives, those for embedding hosts on demand, or
nothing at all. -/
def libraryOf (embedding bare : Bool) : Library :=
  let standard := Library.standard
  let extended :=
    if embedding then standard.registerAll Native.embeddingPrimitives else standard
  if bare then extended.clear else extended

/-- Changes the machine and gives back something about it. -/
def onMachine {α : Type} (s : Session) (f : Machine → α × Machine) : α × Session :=
  match s with
  | ⟨machine, linker, exporting⟩ =>
    match f machine with
    | (a, machine) => (a, ⟨machine, linker, exporting⟩)

/-- Builds the value of a form. -/
def build (s : Session) (form : Form) : Except Form.Misfit Value × Session :=
  s.onMachine fun m =>
    match m with
    | ⟨⟨store, host, journal⟩, library, o, p, ops, ip, st, fr, rt, cs, ca, na⟩ =>
      match (form.build library) store with
      | .ok v store =>
        (.ok v, ⟨⟨store, host, journal⟩, library, o, p, ops, ip, st, fr, rt, cs, ca, na⟩)
      | .error e store =>
        (.error e, ⟨⟨store, host, journal⟩, library, o, p, ops, ip, st, fr, rt, cs, ca, na⟩)

/-- Binds a value in the native table. -/
def define (s : Session) (key : Text) (v : Value) : Session :=
  { s with machine := { s.machine with library := s.machine.library.define key v } }

/-- Compiles statements with the session's linker, and tells the journal about it. -/
def compile (s : Session) (body : List Stmt) :
    Except Compiler.Refusal Compiler.Compiled × Session :=
  match s with
  | ⟨machine, linker, exporting⟩ =>
    let ⟨result, exporting⟩ := Compiler.compile linker exporting body
    match result with
    | .error e => (.error e, ⟨machine, linker, exporting⟩)
    | .ok compiled =>
      let machine :=
        if machine.world.journal.recording then
          let texts := compiled.messages body.length
          let journal := texts.foldl (fun j t => j.add ⟨.debug, .compiler, t⟩)
            machine.world.journal
          { machine with world := { machine.world with journal := journal } }
        else machine
      (.ok compiled, ⟨machine, linker, exporting⟩)

/-- Executes a program; `none` if it does not end within `fuel` transitions. -/
def execute (fuel : Nat) (s : Session) (p : Program) : Option (Ending × Session) :=
  match s with
  | ⟨machine, linker, exporting⟩ =>
    (machine.execute fuel p).map fun (ending, machine) => (ending, ⟨machine, linker, exporting⟩)

/-- Calls a value; `none` if the call does not end within `fuel` transitions. -/
def call (fuel : Nat) (s : Session) (callee : Value) (args : List Value) :
    Option (Except Stop Value × Session) :=
  match s with
  | ⟨machine, linker, exporting⟩ =>
    (machine.call fuel callee args).map fun (outcome, machine) =>
      (outcome, ⟨machine, linker, exporting⟩)

/-- The objects that values of the session refer to. -/
def store (s : Session) : Store :=
  s.machine.world.store

/-- Changes the store. -/
def modifyStore (s : Session) (f : Store → Store) : Session :=
  (s.onMachine fun m =>
    match m with
    | ⟨⟨store, host, journal⟩, l, o, p, ops, ip, st, fr, rt, cs, ca, na⟩ =>
      ((), ⟨⟨f store, host, journal⟩, l, o, p, ops, ip, st, fr, rt, cs, ca, na⟩)).2

/-- The output since it was last taken. -/
def takeOutput (s : Session) : Text × Session :=
  let world := s.machine.world
  (world.host.output,
    { s with
      machine :=
        { s.machine with
          world := { world with host := { world.host with output := Text.empty } } } })

/-- The journal since it was last taken. -/
def takeJournal (s : Session) : Journal × Session :=
  let world := s.machine.world
  (world.journal,
    { s with
      machine :=
        { s.machine with world := { world with journal := Journal.new world.journal.recording } } })

end Session
end ScriptEngine
