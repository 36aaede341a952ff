import ScriptEngine.Source
import ScriptEngine.Store.Reserve
import ScriptEngine.Table
import ScriptEngine.Value

/-!
# The object store

The store holds every object that values refer to, and the frames of bindings. Objects are
created, read and changed here and nowhere else; nothing is ever removed.

A list is a window of some length onto a row of cells. Changing an element, or growing within the
row, changes the row; growing beyond it moves the list to a new row. Someone who walks the old row
sees changes of the former kind only.
-/

namespace ScriptEngine

/-- A row of cells. Cells up to `capacity` exist; those never written are not represented. -/
structure Row where
  cells : Array Value
  capacity : Nat
  deriving Inhabited

/-- The first `size` cells of a row. -/
structure Window where
  row : Nat
  size : Nat
  deriving DecidableEq, Inhabited

/-- A value of a record type. -/
structure Instance where
  type : TypeInfo
  fields : Table Value
  deriving Inhabited

/-- A parameter with the type that its argument must have, if any. -/
structure Parameter where
  name : Text
  guard : Option TypeInfo
  deriving DecidableEq, Inhabited

/-- A function of the program: where its code begins, the frame it was built in, and the receiver
it is bound to. -/
structure Closure where
  entry : Int
  frame : Option FrameId
  params : List Parameter
  name : Text
  receiver : Option Value
  deriving DecidableEq, Inhabited

/-- What a frame is for. -/
inductive FrameKind where
  /-- A scope inside a function. -/
  | block
  /-- The activation of a function, or the root: its name, the call site, the frame it returns to,
  and the native that made the call, if one did. -/
  | boundary (name : Text) (site : Option Span) (caller : Option FrameId) (native : Text)
  deriving DecidableEq, Inhabited

/-- Bindings and the frame around them. -/
structure Frame where
  vars : Table Value
  outer : Option FrameId
  kind : FrameKind
  deriving Inhabited

structure Store where
  rows : Array Row
  lists : Array Window
  dicts : Array (Table Value)
  instances : Array Instance
  closures : Array Closure
  frames : Array Frame
  deriving Inhabited

namespace Store

def empty : Store :=
  ⟨#[], #[], #[], #[], #[], #[]⟩

/-!
## Lists
-/

/-- A new list with the given elements and row size. -/
def newListIn (s : Store) (items : Array Value) (capacity : Nat) : ListId × Store :=
  let row := s.rows.size
  let size := items.size
  (s.lists.size,
    { s with rows := s.rows.push ⟨items, capacity⟩, lists := s.lists.push ⟨row, size⟩ })

/-- A new list whose row has just the cells it needs. -/
def newList (s : Store) (items : Array Value) : ListId × Store :=
  s.newListIn items items.size

/-- The window of a list. -/
def window (s : Store) (l : ListId) : Window :=
  s.lists[l]?.getD ⟨0, 0⟩

/-- Number of elements. -/
def listSize (s : Store) (l : ListId) : Nat :=
  (s.window l).size

/-- The cells of a row that were ever written. -/
def rowCells (s : Store) (r : Nat) : Array Value :=
  match s.rows[r]? with
  | some row => row.cells
  | none => #[]

/-- The element of a row at a position. -/
def rowGet (s : Store) (r i : Nat) : Value :=
  (s.rowCells r)[i]?.getD .null

/-- The elements of a list in order. -/
def items (s : Store) (l : ListId) : Array Value :=
  let w := s.window l
  let cells := s.rowCells w.row
  if cells.size == w.size then cells else cells.extract 0 w.size

/-- The element of a list at a position. -/
def listGet (s : Store) (l : ListId) (i : Nat) : Value :=
  s.rowGet (s.window l).row i

/-- Writes a cell, which may be the first one that was never written. -/
def Row.write (row : Row) (i : Nat) (v : Value) : Row :=
  if i < row.cells.size then { row with cells := row.cells.setIfInBounds i v }
  else { row with cells := row.cells.push v }

/-- Changes an element in place. -/
def listSet (s : Store) (l : ListId) (i : Nat) (v : Value) : Store :=
  { s with rows := s.rows.modify (s.window l).row (Row.write · i v) }

/-- Makes room for one more element behind the last, moving the list to a larger row if its own is
full. -/
def listReserve (s : Store) (l : ListId) : Store :=
  let w := s.window l
  match s.rows[w.row]? with
  | none => s
  | some row =>
    if w.size < row.capacity then s
    else
      let last := s.rows.size
      { s with
        lists := s.lists.setIfInBounds l ⟨last, w.size⟩
        rows := s.rows.push
          ⟨row.cells.extract 0 w.size, Reserve.grow row.capacity (w.size + 1)⟩ }

/-- Puts an element behind the last. -/
def listPush (s : Store) (l : ListId) (v : Value) : Store :=
  let s := s.listReserve l
  let w := s.window l
  { s with
    lists := s.lists.setIfInBounds l { w with size := w.size + 1 }
    rows := s.rows.modify w.row (Row.write · w.size v) }

/-- Drops the last element; its cell keeps the value. -/
def listPop (s : Store) (l : ListId) : Store :=
  let w := s.window l
  { s with lists := s.lists.setIfInBounds l { w with size := w.size - 1 } }

/-- Moves the cells from position `i` up to `n` one place up, then writes the free one. -/
def Row.insertAt (row : Row) (i n : Nat) (v : Value) : Row :=
  let kept := row.cells.extract (n + 1) row.cells.size
  { row with
    cells := row.cells.extract 0 i ++ #[v] ++ row.cells.extract i n ++ kept }

/-- Moves the cells behind position `i` up to `n` one place down; the last one stays as it is. -/
def Row.removeAt (row : Row) (i n : Nat) : Row :=
  { row with
    cells := row.cells.extract 0 i ++ row.cells.extract (i + 1) n
      ++ row.cells.extract (n - 1) row.cells.size }

/-- Puts an element at position `i`, which is at most the length. -/
def listInsert (s : Store) (l : ListId) (i : Nat) (v : Value) : Store :=
  let s := s.listReserve l
  let w := s.window l
  { s with
    lists := s.lists.setIfInBounds l { w with size := w.size + 1 }
    rows := s.rows.modify w.row (Row.insertAt · i w.size v) }

/-- Takes the element at position `i` out. -/
def listRemove (s : Store) (l : ListId) (i : Nat) : Store :=
  let w := s.window l
  { s with
    lists := s.lists.setIfInBounds l { w with size := w.size - 1 }
    rows := s.rows.modify w.row (Row.removeAt · i w.size) }

/-!
## Dicts, instances and closures
-/

def newDict (s : Store) (entries : Table Value) : DictId × Store :=
  (s.dicts.size, { s with dicts := s.dicts.push entries })

/-- The bindings of a dict. -/
def dict (s : Store) (d : DictId) : Table Value :=
  s.dicts[d]?.getD Table.empty

def modifyDict (s : Store) (d : DictId) (f : Table Value → Table Value) : Store :=
  { s with dicts := s.dicts.modify d f }

/-- A new instance with every field null. -/
def newInstance (s : Store) (t : TypeInfo) : InstanceId × Store :=
  let fields := t.fields.foldl (fun acc f => acc.insert f Value.null) Table.empty
  (s.instances.size, { s with instances := s.instances.push ⟨t, fields⟩ })

def instance? (s : Store) (i : InstanceId) : Option Instance :=
  s.instances[i]?

/-- The type of an instance. -/
def instanceType (s : Store) (i : InstanceId) : TypeInfo :=
  match s.instances[i]? with
  | some inst => inst.type
  | none => default

/-- The field of an instance. -/
def field? (s : Store) (i : InstanceId) (name : Text) : Option Value :=
  match s.instances[i]? with
  | some inst => inst.fields.get? name
  | none => none

def setField (s : Store) (i : InstanceId) (name : Text) (v : Value) : Store :=
  { s with
    instances := s.instances.modify i fun inst =>
      { inst with fields := inst.fields.insert name v } }

def newClosure (s : Store) (c : Closure) : ClosureId × Store :=
  (s.closures.size, { s with closures := s.closures.push c })

def closure? (s : Store) (c : ClosureId) : Option Closure :=
  s.closures[c]?

/-!
## Frames
-/

def newFrame (s : Store) (f : Frame) : FrameId × Store :=
  (s.frames.size, { s with frames := s.frames.push f })

/-- The outermost frame of a run. -/
def newRoot (s : Store) (name : Text) : FrameId × Store :=
  s.newFrame ⟨Table.empty, none, .boundary name none none Text.empty⟩

/-- A scope inside another frame. -/
def newBlock (s : Store) (outer : Option FrameId) : FrameId × Store :=
  s.newFrame ⟨Table.empty, outer, .block⟩

def frame? (s : Store) (f : FrameId) : Option Frame :=
  s.frames[f]?

/-!
## Type names
-/

/-- The type name that method look-up goes by: the record's name for instances, the name of the
kind otherwise. -/
def typeName (s : Store) : Value → Text
  | .inst i => (s.instanceType i).name
  | v => v.kind.name

/-- Whether a value has the engine's own type of that name, not a program's type. -/
def isBuiltin (s : Store) (v : Value) (type : Text) : Bool :=
  match v with
  | .inst i =>
    let t := s.instanceType i
    t.builtin && t.name == type
  | v => v.kind.name == type

/-- The type of a value as a value: the record type of an instance, a conversion type
otherwise. -/
def typeOf (s : Store) (v : Value) : TypeInfo :=
  match v with
  | .inst i => s.instanceType i
  | v => TypeInfo.conversion (s.typeName v)

/-- How a refused receiver is described. -/
def describe (s : Store) (v : Value) : Text :=
  match v with
  | .inst _ => "an instance of user type " ++ s.typeName v
  | v => s.typeName v

end Store
end ScriptEngine
