import ScriptEngine.Value.Display

/-!
# Copies

A copy of a container is a new object with the same elements. A clone is a copy of the whole graph
of containers below a value, in which sharing and cycles are as before.
-/

namespace ScriptEngine
namespace Store

/-- A new handle around the same elements for lists, dicts, closures and instances; other values
are their own copies. -/
def copy (s : Store) (v : Value) : Value × Store :=
  match v with
  | .list l =>
    let items := s.items l
    let (id, s) := s.newListIn items (if items.isEmpty then 0 else Reserve.cells items.size)
    (.list id, s)
  | .dict d =>
    let (id, s) := s.newDict (s.dict d)
    (.dict id, s)
  | .closure c =>
    match s.closure? c with
    | none => (v, s)
    | some c =>
      let (id, s) := s.newClosure c
      (.closure id, s)
  | .inst i =>
    match s.instance? i with
    | none => (v, s)
    | some inst =>
      (.inst s.instances.size, { s with instances := s.instances.push inst })
  | v => (v, s)

/-- The copies made so far by one clone. -/
structure Cloning where
  store : Store
  made : List (Container × Value)

namespace Cloning

/-- The copy of a container, if there is one. -/
def find? (c : Cloning) (container : Container) : Option Value :=
  (c.made.find? fun (k, _) => k == container).map (·.2)

/-- Remembers the copy of a container. -/
def record (c : Cloning) (container : Container) (copy : Value) : Cloning :=
  { c with made := (container, copy) :: c.made }

end Cloning

/-- Clones a list of values in order. -/
def cloneAll (clone : Cloning → Value → Value × Cloning) :
    Cloning → List Value → Array Value → Array Value × Cloning
  | c, [], acc => (acc, c)
  | c, v :: rest, acc =>
    let (v', c) := clone c v
    cloneAll clone c rest (acc.push v')

/-- Clones bindings in order. -/
def cloneEntries (clone : Cloning → Value → Value × Cloning) :
    Cloning → List (Text × Value) → List (Text × Value) → List (Text × Value) × Cloning
  | c, [], acc => (acc.reverse, c)
  | c, (k, v) :: rest, acc =>
    let (v', c) := clone c v
    cloneEntries clone c rest ((k, v') :: acc)

/-- Clones a value. The copy of a container is remembered before its elements are cloned, so each
container is entered once; `fuel` bounds how many are entered inside each other. -/
def cloneWithin : Nat → Cloning → Value → Value × Cloning
  | 0, c, v => (v, c)
  | fuel + 1, c, v =>
    match v with
    | .closure _ =>
      let (v', s) := c.store.copy v
      (v', { c with store := s })
    | .list l =>
      match c.find? (.list l) with
      | some v' => (v', c)
      | none =>
        let items := c.store.items l
        let (id, s) := c.store.newList (Array.replicate items.size .null)
        let c := { c with store := s }.record (.list l) (.list id)
        let (items', c) := cloneAll (cloneWithin fuel) c items.toList #[]
        let row := (c.store.window id).row
        (.list id,
          { c with
            store := { c.store with
              rows := c.store.rows.modify row fun r => { r with cells := items' } } })
    | .dict d =>
      match c.find? (.dict d) with
      | some v' => (v', c)
      | none =>
        let entries := (c.store.dict d).entries
        let (id, s) := c.store.newDict Table.empty
        let c := { c with store := s }.record (.dict d) (.dict id)
        let (entries', c) := cloneEntries (cloneWithin fuel) c entries []
        (.dict id, { c with store := c.store.modifyDict id fun _ => ⟨entries'⟩ })
    | .inst i =>
      match c.find? (.inst i) with
      | some v' => (v', c)
      | none =>
        match c.store.instance? i with
        | none => (v, c)
        | some inst =>
          let id := c.store.instances.size
          let s := { c.store with instances := c.store.instances.push { inst with fields := .empty } }
          let c := { c with store := s }.record (.inst i) (.inst id)
          let (fields', c) := cloneEntries (cloneWithin fuel) c inst.fields.entries []
          (.inst id,
            { c with
              store := { c.store with
                instances := c.store.instances.modify id fun x => { x with fields := ⟨fields'⟩ } } })
    | v => (v, c)

/-- A copy of everything below a value. -/
def clone (s : Store) (v : Value) : Value × Store :=
  let (v', c) := cloneWithin (s.containers + 1) ⟨s, []⟩ v
  (v', c.store)

end Store
end ScriptEngine
