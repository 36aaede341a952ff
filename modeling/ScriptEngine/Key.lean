import ScriptEngine.Text
import ScriptEngine.Value.Kind

/-!
# Binding keys

Methods, constructors and conversions are bound under one flat key made of a type name and a
member name. The separator cannot stand in an identifier, so such keys never meet plain names.
-/

namespace ScriptEngine
namespace Key

/-- Stands between the type name and the member name. -/
def separator : Text :=
  "⊕"

/-- The key of member `name` of type `type`; a member of no type keeps its bare name. -/
def join (name type : Text) : Text :=
  if type.isEmpty then name else type ++ separator ++ name

/-- The type and the member name of a key, cut at the first separator; a plain name has an empty
type. -/
def split (key : Text) : Text × Text :=
  match key.find? separator with
  | some i => (key.take i, key.drop (i + separator.size))
  | none => (Text.empty, key)

/-- How traces and messages show a key: `Type.name` for a member, the bare name otherwise. -/
def display (key : Text) : Text :=
  let (type, name) := split key
  if type.isEmpty then name else type ++ "." ++ name

/-- The methods that operators dispatch to. -/
def operators : List (Text × Text) :=
  [("+", "plus"), ("-", "minus"), ("*", "times"), ("/", "divide"), ("%", "mod"), ("==", "eq"),
    ("!=", "neq"), ("<", "lt"), ("<=", "lte"), (">", "gt"), (">=", "gte")]

/-- The method name of an operator; a token without a name of its own stands for itself. -/
def operatorMethod (token : Text) : Text :=
  match operators.find? fun (op, _) => op == token with
  | some (_, method) => method
  | none => token

/-- The key under which an importable module is bound. -/
def module (path : Text) : Text :=
  "module:" ++ path

/-- The hidden root binding that collects what a program exports. -/
def exports : Text :=
  "$exports"

/-- Whether a name is taken by a type of the engine. -/
def isBuiltinType (name : Text) : Bool :=
  name == Text.ofString iteratorName
    || Kind.builtin.any fun k => name == k.name

end Key
end ScriptEngine
