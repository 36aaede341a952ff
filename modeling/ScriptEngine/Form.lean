import ScriptEngine.Native.Library

/-!
# Value forms

A form describes a value that a host wants to hand to the engine. Building it creates the objects
it describes, so two builds of one form share nothing but the values it quotes.
-/

namespace ScriptEngine

/-- A description of a value. -/
inductive Form where
  /-- A value that exists already. -/
  | value (v : Value)
  | list (items : List Form)
  | dict (entries : List (Text × Form))
  /-- An entry of the native table. -/
  | entry (key : Text)
  /-- A native of the table with a receiver. -/
  | bound (key : Text) (receiver : Form)
  /-- A new instance of a type, with some fields stored. -/
  | inst (type : Form) (fields : List (Text × Form))
  /-- A function without code, parameters and frame. -/
  | closure (name : Text)
  deriving Inhabited

namespace Form

/-- Why a form describes no value. -/
inductive Misfit where
  | unknownEntry (key : Text)
  | notNative (key : Text)
  | notRecord
  deriving DecidableEq

/-- Building creates objects and may find that the form fits nothing. -/
abbrev Build := EStateM Misfit Store

/-- A function without code. -/
def bareClosure (name : Text) : Closure :=
  ⟨0, none, [], name, none⟩

mutual

/-- Builds the value of a form. -/
def build (l : Library) : Form → Build Value
  | value v => pure v
  | list items => do
    let vs ← buildAll l items
    modifyGet fun s =>
      let (id, s) := s.newList vs.toArray
      (.list id, s)
  | dict entries => do
    let vs ← buildEntries l entries
    modifyGet fun s =>
      let (id, s) := s.newDict (Table.ofList vs)
      (.dict id, s)
  | entry key =>
    match l.resolve key with
    | some v => pure v
    | none => throw (.unknownEntry key)
  | bound key receiver => do
    let r ← build l receiver
    match l.resolve key with
    | some (.native n) | some (.bound n _) => pure (.bound n r)
    | _ => throw (.notNative key)
  | inst type fields => do
    let t ← build l type
    match t with
    | .type t => do
      let id ← modifyGet fun s => s.newInstance t
      let vs ← buildEntries l fields
      modify fun s => vs.foldl (fun s (f, v) => s.setField id f v) s
      pure (.inst id)
    | _ => throw .notRecord
  | closure name =>
    modifyGet fun s =>
      let (id, s) := s.newClosure (bareClosure name)
      (.closure id, s)

/-- Builds forms in order. -/
def buildAll (l : Library) : List Form → Build (List Value)
  | [] => pure []
  | f :: rest => do
    let v ← build l f
    let vs ← buildAll l rest
    pure (v :: vs)

/-- Builds named forms in order. -/
def buildEntries (l : Library) : List (Text × Form) → Build (List (Text × Value))
  | [] => pure []
  | (k, f) :: rest => do
    let v ← build l f
    let vs ← buildEntries l rest
    pure ((k, v) :: vs)

end

end Form
end ScriptEngine
