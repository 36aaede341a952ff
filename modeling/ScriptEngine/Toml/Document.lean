import ScriptEngine.Toml.Reading

/-!
# Documents

A document is what the lines of a file describe: tables of names, the first of them the file's own.
A table comes into being by its header, by a header or dotted name that leads through it, or as an
inline table. One that was only led through is provisional: a later line may define it. Anything
else can be defined once.

An array is more lenient than a table. Where an array was written, a dotted name that leads through
it puts a new table in its place, however often that happens. Whether an array was written at a path
is noted apart from the tables; a value with the empty name counts for the table around it.

An inline table is entered into the document name by name, and is besides collected as a table of
its own, which takes the place of the first one where an array was noted at its path. Two paths may
so lead to one table, and tables are known by numbers.
-/

namespace ScriptEngine
namespace Toml

/-- The number of a table. -/
abbrev TableId := Nat

/-- What a name stands for. -/
inductive Node where
  | leaf (value : Literal)
  | table (id : TableId)
  /-- An array of tables; names lead to its last element. -/
  | tables (ids : List TableId)
  deriving Inhabited

/-- The entries of a table. -/
abbrev Entries := List (Text × Node)

namespace Entries

def get? (entries : Entries) (key : Text) : Option Node :=
  (entries.find? fun (k, _) => k == key).map (·.2)

/-- Binds a key, at its place if it was bound. -/
def put (entries : Entries) (key : Text) (node : Node) : Entries :=
  match entries with
  | [] => [(key, node)]
  | (k, n) :: rest => if k == key then (k, node) :: rest else (k, n) :: put rest key node

end Entries

/-- The tables, the paths of the provisional ones, and the paths where an array was noted. -/
structure Document where
  tables : Array Entries
  provisional : List Name
  arrays : List Name
  deriving Inhabited

namespace Document

/-- The number of the file's own table. -/
def root : TableId :=
  0

/-- A file without lines. -/
def empty : Document :=
  ⟨#[[]], [], []⟩

/-- The entries of a table. -/
def entries (d : Document) (id : TableId) : Entries :=
  d.tables[id]?.getD []

/-- What a key of a table stands for. -/
def get? (d : Document) (id : TableId) (key : Text) : Option Node :=
  (d.entries id).get? key

/-- The table that a node leads to. -/
def tableOf? : Node → Option TableId
  | .leaf _ => none
  | .table id => some id
  | .tables ids => ids.getLast?

/-- The table at a path from a given one. -/
def follow? (d : Document) (id : TableId) : Name → Option TableId
  | [] => some id
  | key :: path => do
    let node ← d.get? id key
    let next ← tableOf? node
    d.follow? next path

end Document

/-- A change of a document, which fails if a line defines something twice. -/
abbrev Build := StateT Document Option

namespace Build

/-!
## Single changes
-/

/-- Makes a table without entries. -/
def newTable : Build TableId :=
  modifyGet fun d => (d.tables.size, { d with tables := d.tables.push [] })

/-- Lets a key of a table stand for a node. -/
def put (id : TableId) (key : Text) (node : Node) : Build Unit :=
  modify fun d => { d with tables := d.tables.modify id (·.put key node) }

def markProvisional (path : Name) : Build Unit :=
  modify fun d =>
    if d.provisional.contains path then d else { d with provisional := path :: d.provisional }

def unmark (path : Name) : Build Unit :=
  modify fun d => { d with provisional := d.provisional.filter (· != path) }

/-- Where the kind of a value is noted: at its path, or at the path of the table around it if its
name is empty. -/
def notedAt (context : Name) (key : Text) : Name :=
  if key.isEmpty && !context.isEmpty then context else context ++ [key]

/-- Notes whether an array was written at a key. -/
def note (context : Name) (key : Text) (array : Bool) : Build Unit :=
  let path := notedAt context key
  modify fun d =>
    let others := d.arrays.filter (· != path)
    { d with arrays := if array then path :: others else others }

/-- Defines a key of the table at a path. What stands there already must be provisional: an array
gives way to the new node, and anything else stays and counts as defined. -/
def define (context : Name) (key : Text) (node : Node) : Build Unit := do
  let d ← get
  let id ← d.follow? Document.root context
  let path := context ++ [key]
  match d.get? id key with
  | none => put id key node
  | some _ =>
    if d.provisional.contains path then
      unmark path
      if d.arrays.contains path then put id key node
    else failure

/-!
## Opening tables
-/

/-- Goes through the tables at a path behind `before`, making provisional ones where there is
nothing, and gives back the last. -/
def lead (before : Name) (id : TableId) : Name → Build TableId
  | [] => pure id
  | key :: rest => do
    let here := before ++ [key]
    match (← get).get? id key with
    | none =>
      markProvisional here
      let next ← newTable
      put id key (.table next)
      lead here next rest
    | some node =>
      let next ← Document.tableOf? node
      lead here next rest

/-- Opens the table with a path. -/
def openTable (path : Name) : Build Unit := do
  let key ← path.getLast?
  let _ ← lead [] Document.root path.dropLast
  define path.dropLast key (.table (← newTable))

/-- Opens one more element of the array of tables with a path. -/
def openElement (path : Name) : Build Unit := do
  let key ← path.getLast?
  let id ← lead [] Document.root path.dropLast
  let element ← newTable
  match (← get).get? id key with
  | none => put id key (.tables [element])
  | some (.tables ids) => put id key (.tables (ids ++ [element]))
  | some _ => failure

/-- Opens the provisional tables that the front parts of a dotted name lead through. -/
def openFront (context : Name) : Name → Build Unit
  | [] => pure ()
  | key :: rest => do
    let here := context ++ [key]
    markProvisional here
    openTable here
    openFront here rest

/-!
## Values
-/

/-- Collects an entry of an inline table in a table of its own. -/
def collect (id : TableId) (key : Text) (node : Node) : Name → Build Unit
  | [] => put id key node
  | part :: rest => do
    match (← get).get? id part with
    | none =>
      let next ← newTable
      put id part (.table next)
      collect next key node rest
    | some (.table next) => collect next key node rest
    | some _ => failure

/-- Assigns what `value` makes of the place that a dotted name leads to. -/
def assign (context name : Name) (array : Bool) (value : Name → Text → Build Node) :
    Build Node := do
  let key ← name.getLast?
  openFront context name.dropLast
  let path := context ++ name.dropLast
  let node ← value path key
  define path key node
  note path key array
  pure node

mutual

/-- The node of a value at a key of the table at a path. Its inline tables are entered there; inside
an array each is one more element. -/
def enter (context : Name) (key : Text) (inArray : Bool) : Literal → Build Node
  | .array items => do
    note context key true
    enterAll context key items
    pure (.leaf (.array items))
  | .table entries => do
    let here := context ++ [key]
    markProvisional here
    if inArray then openElement here else openTable here
    let own ← newTable
    assignAll here own entries
    pure (.table own)
  | value => pure (.leaf value)

/-- Enters the items of an array. -/
def enterAll (context : Name) (key : Text) : List Literal → Build Unit
  | [] => pure ()
  | item :: rest => do
    let _ ← enter context key true item
    enterAll context key rest

/-- Assigns the entries of an inline table and collects them. -/
def assignAll (context : Name) (own : TableId) : List (Name × Literal) → Build Unit
  | [] => pure ()
  | (name, value) :: rest => do
    let node ← assign context name value.isArray fun path key => enter path key false value
    collect own (name.getLast?.getD Text.empty) node name.dropLast
    assignAll context own rest

end

/-!
## Lines
-/

/-- Adds a line, and gives back the path of the table that the next assignments go to. -/
def addLine (context : Name) : Line → Build Name
  | .table name => do
    openTable name
    note name Text.empty false
    pure name
  | .element name => do
    openElement name
    note name Text.empty false
    pure name
  | .assign name value => do
    let _ ← assign context name value.isArray fun path key => enter path key false value
    pure context

/-- Adds lines in order. -/
def addLines (context : Name) : List Line → Build Unit
  | [] => pure ()
  | line :: rest => do
    let next ← addLine context line
    addLines next rest

end Build

/-- The document of a file; `none` if the file is not well-formed or defines something twice. -/
def Document.read? (t : Text) : Option Document := do
  let lines ← lines? t
  let ((), d) ← (Build.addLines [] lines).run empty
  pure d

end Toml
end ScriptEngine
