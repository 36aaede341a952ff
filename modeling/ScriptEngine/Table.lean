import ScriptEngine.Text

/-!
# Ordered tables

A table binds texts to values and remembers the order in which its keys were first bound.
Overwriting keeps a key's place, and a key that is removed and bound again goes to the end. Main
statements: reading after a write gives the value written, and other keys are not touched.
-/

namespace ScriptEngine

/-- Bindings in the order of their first insertion. -/
structure Table (α : Type) where
  entries : List (Text × α)
  deriving Inhabited

namespace Table

variable {α : Type}

def empty : Table α :=
  ⟨[]⟩

/-- The value bound to a key in a list of bindings. -/
def lookup (key : Text) : List (Text × α) → Option α
  | [] => none
  | (k, v) :: rest => if k = key then some v else lookup key rest

/-- The value bound to a key. -/
def get? (t : Table α) (key : Text) : Option α :=
  lookup key t.entries

def contains (t : Table α) (key : Text) : Bool :=
  (t.get? key).isSome

/-- Rebinds a key at its place, or binds it at the end. -/
def update (key : Text) (value : α) : List (Text × α) → List (Text × α)
  | [] => [(key, value)]
  | (k, v) :: rest => if k = key then (k, value) :: rest else (k, v) :: update key value rest

/-- Binds a key, keeping its place if it was bound. -/
def insert (t : Table α) (key : Text) (value : α) : Table α :=
  ⟨update key value t.entries⟩

/-- Removes the binding of a key. -/
def erase (t : Table α) (key : Text) : Table α :=
  ⟨t.entries.filter fun e => e.1 ≠ key⟩

/-- The keys in order. -/
def keys (t : Table α) : List Text :=
  t.entries.map (·.1)

/-- The values in the order of their keys. -/
def values (t : Table α) : List α :=
  t.entries.map (·.2)

def size (t : Table α) : Nat :=
  t.entries.length

/-- Binds the pairs of a list one after the other. -/
def insertAll (t : Table α) (pairs : List (Text × α)) : Table α :=
  pairs.foldl (fun acc (k, v) => acc.insert k v) t

def ofList (pairs : List (Text × α)) : Table α :=
  empty.insertAll pairs

/-- The bindings sorted by the bytes of their keys. -/
def sorted (t : Table α) : List (Text × α) :=
  t.entries.mergeSort fun a b => !b.1.before a.1

theorem lookup_update (key k : Text) (value : α) (entries : List (Text × α)) :
    lookup k (update key value entries) =
      if key = k then some value else lookup k entries := by
  induction entries with
  | nil => simp [update, lookup]
  | cons entry rest ih =>
    obtain ⟨k', v⟩ := entry
    by_cases h : k' = key
    · subst h
      by_cases hk : k' = k <;> simp [update, lookup, hk]
    · by_cases hk : k' = k
      · subst hk
        simp [update, lookup, h, Ne.symm h]
      · simp [update, lookup, h, hk, ih]

theorem get?_insert (t : Table α) (key k : Text) (value : α) :
    (t.insert key value).get? k = if key = k then some value else t.get? k :=
  lookup_update key k value t.entries

theorem keys_update (key : Text) (value : α) (entries : List (Text × α)) :
    (update key value entries).map (·.1) =
      if key ∈ entries.map (·.1) then entries.map (·.1) else entries.map (·.1) ++ [key] := by
  induction entries with
  | nil => simp [update]
  | cons entry rest ih =>
    obtain ⟨k', v⟩ := entry
    by_cases h : k' = key
    · simp [update, h]
    · simp only [update, if_neg h, List.map_cons, ih, List.mem_cons, Ne.symm h, false_or]
      split <;> simp

theorem keys_insert (t : Table α) (key : Text) (value : α) :
    (t.insert key value).keys = if key ∈ t.keys then t.keys else t.keys ++ [key] :=
  keys_update key value t.entries

end Table
end ScriptEngine
