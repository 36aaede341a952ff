import ScriptEngine.Key
import ScriptEngine.Number.Display
import ScriptEngine.Store
import ScriptEngine.Text.Quoted

/-!
# Values as text

Containers are written with their elements, strings inside them in quotes. A container that is
already being written further out is written as three dots, so the walk ends on every store: each
step inward marks another object, and there are finitely many. Main statement: the marked objects
are those on the path to the place being written.
-/

namespace ScriptEngine

/-- An object that can contain values. -/
inductive Container where
  | list (id : ListId)
  | dict (id : DictId)
  | inst (id : InstanceId)
  deriving DecidableEq, Inhabited

namespace Value

def container? : Value → Option Container
  | list id => some (.list id)
  | dict id => some (.dict id)
  | inst id => some (.inst id)
  | _ => none

end Value

namespace Store

/-- How many containers a store holds. -/
def containers (s : Store) : Nat :=
  s.lists.size + s.dicts.size + s.instances.size

/-- The name under which a closure is shown and traced. -/
def closureName (c : Closure) : Text :=
  if c.name.isEmpty then "<func>" else Key.display c.name

/-- The text of a value that contains no others. -/
def showLeaf (s : Store) : Value → Text
  | .null => "null"
  | .number x => Number.display x
  | .text t => t
  | .boolean b => if b then "true" else "false"
  | .type t => "<type " ++ t.name ++ ">"
  | .closure id =>
    match s.closure? id with
    | none => "<func>"
    | some c => if c.name.isEmpty then "<func>" else "<func " ++ Key.display c.name ++ ">"
  | .native n => "<native " ++ Key.display n.name ++ ">"
  | .bound n _ => "<native " ++ Key.display n.name ++ ">"
  | .empty => "<empty>"
  | _ => Text.empty

/-- The parts of a container, each with what stands in front of it, between an opening and a
closing text. -/
structure Layout where
  opening : Text
  parts : List (Text × Value)
  closing : Text

/-- How a container is laid out. -/
def layout (s : Store) : Container → Layout
  | .list id => ⟨"[", (s.items id).toList.map fun v => (Text.empty, v), "]"⟩
  | .dict id => ⟨"\x7b", (s.dict id).entries.map fun (k, v) => (k.quoted ++ ": ", v), "\x7d"⟩
  | .inst id =>
    let t := s.instanceType id
    ⟨t.name ++ "(", t.fields.map fun f => (f ++ ": ", (s.field? id f).getD .null), ")"⟩

/-- The text of a value that is no container, in quotes if it is a string and `quote` says so. -/
def showScalar (s : Store) (quote : Bool) : Value → Text
  | .text t => if quote then t.quoted else t
  | v => s.showLeaf v

/-- Writes parts one after the other, each behind what stands in front of it. -/
def writeParts (write : Value → List Container → Text × List Container) :
    List (Text × Value) → List Container → List Text × List Container
  | [], marks => ([], marks)
  | (before, x) :: rest, marks =>
    let (t, marks) := write x marks
    let (texts, marks) := writeParts write rest marks
    ((before ++ t) :: texts, marks)

/-- Writes a value, with strings in quotes if `quote`. A container is marked while its parts are
written, and one set of marks goes through the whole walk. -/
def write (s : Store) : Nat → Bool → Value → List Container → Text × List Container
  | 0, _, _, marks => ("...", marks)
  | fuel + 1, quote, v, marks =>
    match v.container? with
    | none => (s.showScalar quote v, marks)
    | some c =>
      if marks.contains c then ("...", marks)
      else
        let shape := s.layout c
        let (parts, marks) := writeParts (s.write fuel true) shape.parts (c :: marks)
        (shape.opening ++ Text.join ", " parts ++ shape.closing, marks.filter (· != c))

/-- The text that a program prints for a value. -/
def display (s : Store) (v : Value) : Text :=
  (s.write (s.containers + 1) false v []).1

/-- The text of a value as it appears inside a container. -/
def repr (s : Store) (v : Value) : Text :=
  (s.write (s.containers + 1) true v []).1

/-!
## Writing below a path

At any time the marked containers are those around the place that is being written.
-/

/-- The text of a value, with strings in quotes if `quote`, inside the containers of `path`. -/
def showWithin (s : Store) : Nat → List Container → Bool → Value → Text
  | 0, _, _, _ => "..."
  | fuel + 1, path, quote, v =>
    match v.container? with
    | none => s.showScalar quote v
    | some c =>
      if path.contains c then "..."
      else
        let shape := s.layout c
        let parts := shape.parts.map fun (before, x) =>
          before ++ showWithin s fuel (c :: path) true x
        shape.opening ++ Text.join ", " parts ++ shape.closing

theorem writeParts_eq {write : Value → List Container → Text × List Container}
    {marks : List Container} {text : Value → Text} (h : ∀ x, write x marks = (text x, marks))
    (parts : List (Text × Value)) :
    writeParts write parts marks = (parts.map fun (before, x) => before ++ text x, marks) := by
  induction parts with
  | nil => rfl
  | cons part rest ih =>
    obtain ⟨before, x⟩ := part
    simp only [writeParts, h, ih, List.map_cons]

/-- Whatever is written, the marks are afterwards what they were before. -/
theorem write_eq (s : Store) (fuel : Nat) (quote : Bool) (v : Value) (marks : List Container) :
    s.write fuel quote v marks = (s.showWithin fuel marks quote v, marks) := by
  induction fuel generalizing quote v marks with
  | zero => rfl
  | succ fuel ih =>
    unfold write showWithin
    cases v.container? with
    | none => rfl
    | some c =>
      dsimp only
      by_cases hseen : marks.contains c = true
      · rw [if_pos hseen, if_pos hseen]
      · have hkept : marks.filter (· != c) = marks := by
          refine List.filter_eq_self.mpr fun d hd => bne_iff_ne.mpr ?_
          rintro rfl
          exact hseen (List.contains_iff_mem.mpr hd)
        rw [if_neg hseen, if_neg hseen, writeParts_eq fun x => ih true x (c :: marks)]
        simp only [List.filter_cons, bne_self_eq_false, Bool.false_eq_true, if_false, hkept]

theorem display_eq (s : Store) (v : Value) :
    s.display v = s.showWithin (s.containers + 1) [] false v :=
  congrArg Prod.fst (s.write_eq _ _ _ _)

theorem repr_eq (s : Store) (v : Value) :
    s.repr v = s.showWithin (s.containers + 1) [] true v :=
  congrArg Prod.fst (s.write_eq _ _ _ _)

end Store
end ScriptEngine
