import ScriptEngine.Text

/-!
# Kinds of values
-/

namespace ScriptEngine

/-- The built-in kinds of runtime values. `empty` marks a missing assignment target. -/
inductive Kind where
  | null
  | number
  | text
  | boolean
  | type
  | list
  | dict
  | closure
  | native
  | inst
  | empty
  deriving DecidableEq

namespace Kind

/-- The type name of a kind; the two kinds of callables share theirs. -/
def name : Kind → Text
  | null => "Null"
  | number => "Number"
  | text => "String"
  | boolean => "Boolean"
  | type => "Type"
  | list => "List"
  | dict => "Dict"
  | closure => "Function"
  | native => "Function"
  | inst => "Instance"
  | empty => "Empty"

/-- The kinds whose names no program may use for a type of its own. -/
def builtin : List Kind :=
  [null, number, text, boolean, type, list, dict, closure, native]

end Kind

/-- The name of the record type that the engine itself builds instances of. -/
def iteratorName : String :=
  "Iterator"

end ScriptEngine
