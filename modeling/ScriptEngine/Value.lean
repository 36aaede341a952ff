import ScriptEngine.Number.Binary
import ScriptEngine.Text
import ScriptEngine.Value.Kind

/-!
# Runtime values

Scalars, types and natives are plain data. Lists, dicts, closures and instances are handles into a
store, so that two values may share one object.
-/

namespace ScriptEngine

/-- A type: a conversion target, or a record with its field names. The engine's own record types
are told apart from records of the same name that programs define. -/
structure TypeInfo where
  name : Text
  fields : List Text
  record : Bool
  builtin : Bool
  deriving DecidableEq, Inhabited

namespace TypeInfo

/-- A type that values can be converted to. -/
def conversion (name : Text) : TypeInfo :=
  ⟨name, [], false, false⟩

/-- A record type defined by a program. -/
def ofFields (name : Text) (fields : List Text) : TypeInfo :=
  ⟨name, fields, true, false⟩

/-- The record type of iterators, which the engine builds itself. -/
def iterator : TypeInfo :=
  ⟨iteratorName, ["items", "position"], true, true⟩

end TypeInfo

/-- A function of the host: its binding key, how many arguments it takes (any number if `none`),
and where its behaviour stands in the library. -/
structure NativeInfo where
  name : Text
  arity : Option Nat
  behaviour : Nat
  deriving DecidableEq, Inhabited

abbrev ListId := Nat

abbrev DictId := Nat

abbrev InstanceId := Nat

abbrev ClosureId := Nat

abbrev FrameId := Nat

/-- A runtime value. -/
inductive Value where
  | null
  | number (x : Float)
  | text (s : Text)
  | boolean (b : Bool)
  | type (t : TypeInfo)
  | list (id : ListId)
  | dict (id : DictId)
  | closure (id : ClosureId)
  | native (n : NativeInfo)
  | bound (n : NativeInfo) (receiver : Value)
  | inst (id : InstanceId)
  | empty
  deriving DecidableEq, Inhabited

namespace Value

def kind : Value → Kind
  | null => .null
  | number _ => .number
  | text _ => .text
  | boolean _ => .boolean
  | type _ => .type
  | list _ => .list
  | dict _ => .dict
  | closure _ => .closure
  | native _ | bound .. => .native
  | inst _ => .inst
  | empty => .empty

/-- Equality as programs see it: by content for scalars, types and natives, by identity for lists,
dicts, closures and instances. A number that is undefined differs from itself. -/
def equal : Value → Value → Bool
  | number x, number y => x == y
  | text s, text t => s == t
  | boolean a, boolean b => a == b
  | null, null => true
  | type s, type t => s.name == t.name
  | native m, native n => m.name == n.name
  | bound m r, bound n q => m.name == n.name && equal r q
  | list a, list b => a == b
  | dict a, dict b => a == b
  | closure a, closure b => a == b
  | inst a, inst b => a == b
  | _, _ => false

/-- The position from zero that a value denotes as an index into a sequence of `n` elements, which
programs count from one. -/
def index? (v : Value) (n : Nat) : Option Nat :=
  match v with
  | number x =>
    if x == Number.trunc x && !(x < 1) && !(Number.ofNat n < x) then
      some ((Number.toWord x).toNat - 1)
    else none
  | _ => none

end Value
end ScriptEngine
