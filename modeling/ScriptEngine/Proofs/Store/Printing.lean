import Mathlib.Data.List.Nodup
import Mathlib.Data.List.Perm.Subperm
import ScriptEngine.Value.Display

/-!
# Texts of values below a path

The text of a value depends on the containers around it: one of them is written as three dots, any
other container in full. Every value has exactly one text below every path, and writing with as much
fuel as there are containers finds it: the containers that are being written are all different, so
there are never more of them than the store holds.
-/

namespace ScriptEngine

/-!
# Containers of a store
-/

namespace Container

/-- The container is in the store. -/
def Within (s : Store) : Container → Prop
  | list (l : Nat) => l < s.lists.size
  | dict (d : Nat) => d < s.dicts.size
  | inst (i : Nat) => i < s.instances.size

/-- The number of a container among all those of a store. -/
def number (s : Store) : Container → Nat
  | list l => l
  | dict d => s.lists.size + d
  | inst i => s.lists.size + s.dicts.size + i

variable {s : Store} {c c' : Container}

theorem number_lt (h : c.Within s) : c.number s < s.containers := by
  unfold Store.containers
  cases c with
  | list => exact Nat.lt_of_lt_of_le h (Nat.le_trans (Nat.le_add_right _ _) (Nat.le_add_right _ _))
  | dict => exact Nat.lt_of_lt_of_le (Nat.add_lt_add_left h _) (Nat.le_add_right _ _)
  | inst => exact Nat.add_lt_add_left h _

theorem number_inj (h : c.Within s) (h' : c'.Within s) (heq : c.number s = c'.number s) : c = c' := by
  rcases c with (l : Nat) | (d : Nat) | (i : Nat) <;> rcases c' with (l' : Nat) | (d' : Nat) | (i' : Nat)
  all_goals
    unfold number at heq
    unfold Within at h h'
    dsimp only at h h' heq
    first
    | exact congrArg _ (by omega)
    | exact absurd heq (by omega)

theorem length_le_containers {path : List Container} (hnodup : path.Nodup)
    (hpath : ∀ c ∈ path, c.Within s) : path.length ≤ s.containers := by
  have hnumbers : (path.map (number s)).Nodup :=
    List.Nodup.map_on (fun c hc c' hc' heq => number_inj (hpath c hc) (hpath c' hc') heq) hnodup
  have hsub : path.map (number s) ⊆ List.range s.containers := by
    intro n hn
    obtain ⟨c, hc, rfl⟩ := List.mem_map.mp hn
    exact List.mem_range.mpr (number_lt (hpath c hc))
  have hle := (List.subperm_of_subset hnumbers hsub).length_le
  rwa [List.length_map, List.length_range] at hle

end Container

/-!
# What is seen of a value
-/

/-- What is seen of a value that is no container. -/
inductive Leaf where
  | null
  | number (x : Float)
  | text (t : Text)
  | boolean (b : Bool)
  | type (name : Text)
  | function (name : Text)
  | native (name : Text)
  | empty

/-- The text of a leaf, in quotes if it is a string and `quote` says so. -/
def Leaf.display (quote : Bool) : Leaf → Text
  | null => "null"
  | number x => Number.display x
  | text t => if quote then t.quoted else t
  | boolean b => if b then "true" else "false"
  | type name => "<type " ++ name ++ ">"
  | function name => if name.isEmpty then "<func>" else "<func " ++ Key.display name ++ ">"
  | native name => "<native " ++ Key.display name ++ ">"
  | empty => "<empty>"

/-- What is seen of a container apart from its parts. -/
inductive Shape where
  | list
  | dict
  | record (type : Text)

namespace Shape

def opening : Shape → Text
  | list => "["
  | dict => "\x7b"
  | record type => type ++ "("

def closing : Shape → Text
  | list => "]"
  | dict => "\x7d"
  | record _ => ")"

/-- What stands in front of a part: its key in a dict, its name in a record. -/
def before : Shape → Text → Text
  | list, _ => Text.empty
  | dict, key => key.quoted ++ ": "
  | record _, name => name ++ ": "

/-- The text of a container whose parts have these texts. -/
def frame (shape : Shape) (parts : List (Text × Text)) : Text :=
  shape.opening ++ Text.join ", " (parts.map fun part => shape.before part.1 ++ part.2) ++ shape.closing

end Shape

namespace Store

def leaf (s : Store) : Value → Leaf
  | .null => .null
  | .number x => .number x
  | .text t => .text t
  | .boolean b => .boolean b
  | .type t => .type t.name
  | .closure c => .function (((s.closure? c).map (·.name)).getD Text.empty)
  | .native n | .bound n _ => .native n.name
  | _ => .empty

def shape (s : Store) : Container → Shape
  | .list _ => .list
  | .dict _ => .dict
  | .inst i => .record (s.instanceType i).name

/-- The parts of a container in order: items, values under their keys, fields under their names. -/
def parts (s : Store) : Container → List (Text × Value)
  | .list l => (s.items l).toList.map fun v => (Text.empty, v)
  | .dict d => (s.dict d).entries
  | .inst i => (s.instanceType i).fields.map fun f => (f, (s.field? i f).getD .null)

section
variable {s : Store} {v : Value} {c : Container} {path : List Container} {quote : Bool} {t t' : Text}

theorem showScalar_eq (h : v.container? = none) : s.showScalar quote v = (s.leaf v).display quote := by
  cases v with
  | closure c =>
    show s.showLeaf (.closure c) = _
    unfold showLeaf leaf
    dsimp only
    cases s.closure? c <;> rfl
  | list | dict | inst => cases h
  | _ => rfl

theorem layout_eq (s : Store) (c : Container) :
    s.layout c = ⟨(s.shape c).opening, (s.parts c).map fun part => ((s.shape c).before part.1, part.2),
      (s.shape c).closing⟩ := by
  cases c with
  | dict => rfl
  | list | inst =>
    unfold layout shape parts
    rw [List.map_map]
    rfl

/-- An object that is not in the store has no parts. -/
theorem parts_eq_nil (h : ¬ c.Within s) : s.parts c = [] := by
  cases c with
  | list l =>
    have hwindow : s.window l = ⟨0, 0⟩ := by
      unfold window
      rw [Array.getElem?_eq_none (Nat.le_of_not_lt h)]
      rfl
    have hitems : s.items l = #[] := by
      unfold items
      rw [hwindow]
      dsimp only
      split
      · rename_i hsize
        exact Array.size_eq_zero_iff.mp (beq_iff_eq.mp hsize)
      · exact Array.extract_zero
    unfold parts
    dsimp only
    rw [hitems]
    rfl
  | dict d =>
    unfold parts dict
    dsimp only
    rw [Array.getElem?_eq_none (Nat.le_of_not_lt h)]
    rfl
  | inst i =>
    unfold parts instanceType
    dsimp only
    rw [Array.getElem?_eq_none (Nat.le_of_not_lt h)]
    rfl

end

/-!
# Texts
-/

/-- The value has the text where the containers of the path, the innermost first, are being written
around it: a container on the path is written as dots, any other one with all of its parts. -/
inductive Prints (s : Store) : List Container → Bool → Value → Text → Prop
  | leaf {path : List Container} {quote : Bool} {v : Value} (h : v.container? = none) :
    Prints s path quote v ((s.leaf v).display quote)
  | again {path : List Container} {quote : Bool} {v : Value} {c : Container}
    (h : v.container? = some c) (hc : c ∈ path) : Prints s path quote v "..."
  | full {path : List Container} {quote : Bool} {v : Value} {c : Container} {texts : Value → Text}
    (h : v.container? = some c) (hc : c ∉ path)
    (hparts : ∀ part ∈ s.parts c, Prints s (c :: path) true part.2 (texts part.2)) :
    Prints s path quote v ((s.shape c).frame ((s.parts c).map fun part => (part.1, texts part.2)))

section
variable {s : Store} {v : Value} {c : Container} {path : List Container} {quote : Bool} {t t' : Text}

theorem Prints.unique (h : s.Prints path quote v t) (h' : s.Prints path quote v t') : t = t' := by
  induction h generalizing t' with
  | leaf h =>
    cases h' with
    | leaf => rfl
    | again hsome => rw [h] at hsome; cases hsome
    | full hsome => rw [h] at hsome; cases hsome
  | again h hc =>
    cases h' with
    | leaf hnone => rw [h] at hnone; cases hnone
    | again => rfl
    | full hsome hc' =>
      rw [h] at hsome
      cases hsome
      exact absurd hc hc'
  | @full path quote v c texts h hc hparts ih =>
    cases h' with
    | leaf hnone => rw [h] at hnone; cases hnone
    | again hsome hc' =>
      rw [h] at hsome
      cases hsome
      exact absurd hc' hc
    | @full _ _ _ _ texts' hsome hc' hparts' =>
      rw [h] at hsome
      cases hsome
      refine congrArg (s.shape c).frame (List.map_congr_left fun part hpart => ?_)
      rw [ih part hpart (hparts' part hpart)]

/-- With more fuel than there are containers left to enter, a value is written with its text. -/
theorem prints_showWithin (hnodup : path.Nodup) (hpath : ∀ c ∈ path, c.Within s) {fuel : Nat}
    (hfuel : s.containers < path.length + fuel) (quote : Bool) (v : Value) :
    s.Prints path quote v (s.showWithin fuel path quote v) := by
  induction fuel generalizing path quote v with
  | zero => exact absurd hfuel (Nat.not_lt_of_le (Container.length_le_containers hnodup hpath))
  | succ fuel ih =>
    unfold showWithin
    cases hv : v.container? with
    | none =>
      dsimp only
      rw [showScalar_eq hv]
      exact .leaf hv
    | some c =>
      dsimp only
      by_cases hseen : path.contains c = true
      · rw [if_pos hseen]
        exact .again hv (List.contains_iff_mem.mp hseen)
      · have hnew : c ∉ path := fun hmem => hseen (List.contains_iff_mem.mpr hmem)
        have hparts : ∀ part ∈ s.parts c,
            s.Prints (c :: path) true part.2 (s.showWithin fuel (c :: path) true part.2) := by
          intro part hpart
          have hwithin : c.Within s := by
            by_contra hout
            rw [parts_eq_nil hout] at hpart
            cases hpart
          refine ih (List.nodup_cons.mpr ⟨hnew, hnodup⟩) (List.forall_mem_cons.mpr ⟨hwithin, hpath⟩) ?_
            true part.2
          rw [List.length_cons]
          omega
        have htext : s.Prints path quote v _ := .full hv hnew hparts
        unfold Shape.frame at htext
        rw [List.map_map] at htext
        rw [if_neg hseen, layout_eq]
        dsimp only
        rw [List.map_map]
        exact htext

theorem prints_display (s : Store) (v : Value) : s.Prints [] false v (s.display v) := by
  rw [display_eq]
  exact prints_showWithin List.nodup_nil (fun _ h => absurd h List.not_mem_nil)
    (by rw [List.length_nil]; omega) false v

theorem prints_repr (s : Store) (v : Value) : s.Prints [] true v (s.repr v) := by
  rw [repr_eq]
  exact prints_showWithin List.nodup_nil (fun _ h => absurd h List.not_mem_nil)
    (by rw [List.length_nil]; omega) true v

/-- The text of a container from the texts of its parts. -/
theorem Prints.of_parts (hv : v.container? = some c) (hc : c ∉ path) {texts : List (Text × Text)}
    (hparts : List.Forall₂ (fun part text => part.1 = text.1 ∧ s.Prints (c :: path) true part.2 text.2)
      (s.parts c) texts) : s.Prints path quote v ((s.shape c).frame texts) := by
  have hexists : ∀ x, ∃ t, ∀ t', s.Prints (c :: path) true x t' → s.Prints (c :: path) true x t := by
    intro x
    by_cases hx : ∃ t, s.Prints (c :: path) true x t
    · exact hx.imp fun t ht _ _ => ht
    · exact ⟨Text.empty, fun t ht => absurd ⟨t, ht⟩ hx⟩
  choose text htext using hexists
  have hall : (∀ part ∈ s.parts c, s.Prints (c :: path) true part.2 (text part.2)) ∧
      texts = (s.parts c).map fun part => (part.1, text part.2) := by
    generalize s.parts c = parts at hparts
    induction hparts with
    | nil => exact ⟨fun _ h => absurd h List.not_mem_nil, rfl⟩
    | cons h _ ih =>
      have hthis := htext _ _ h.2
      refine ⟨List.forall_mem_cons.mpr ⟨hthis, ih.1⟩, ?_⟩
      rw [List.map_cons, ← ih.2, h.1, ← h.2.unique hthis]
  rw [hall.2]
  exact .full hv hc hall.1

end

/-!
# Stores that look alike
-/

/-- Related values of two stores look alike: leaves are the same, and so are containers apart from
their parts, which are related in turn. Containers that differ are not mixed up. -/
structure Likeness (s t : Store) (f : Container → Container) (R : Value → Value → Prop) : Prop where
  leaf : ∀ {x y}, R x y → x.container? = none → y.container? = none ∧ t.leaf y = s.leaf x
  container : ∀ {x y c}, R x y → x.container? = some c → y.container? = some (f c)
  shape : ∀ {x y c}, R x y → x.container? = some c → t.shape (f c) = s.shape c
  parts : ∀ {x y c}, R x y → x.container? = some c →
    List.Forall₂ (fun part part' => part.1 = part'.1 ∧ R part.2 part'.2) (s.parts c) (t.parts (f c))
  injective : ∀ {x y x' y' c c'}, R x y → R x' y' → x.container? = some c → x'.container? = some c' →
    f c = f c' → c = c'

/-- Values that look alike have the same text. -/
theorem Likeness.prints {s t : Store} {f : Container → Container} {R : Value → Value → Prop}
    (h : s.Likeness t f R) {path : List Container} {quote : Bool} {x y : Value} {text : Text}
    (hx : s.Prints path quote x text) (hxy : R x y)
    (hpath : ∀ c ∈ path, ∃ x y, R x y ∧ x.container? = some c) :
    t.Prints (path.map f) quote y text := by
  induction hx generalizing y with
  | leaf hx =>
    obtain ⟨hy, hleaf⟩ := h.leaf hxy hx
    rw [← hleaf]
    exact .leaf hy
  | again hx hc => exact .again (h.container hxy hx) (List.mem_map_of_mem hc)
  | @full path quote x c texts hx hc hparts ih =>
    have hnew : f c ∉ path.map f := by
      intro hmem
      obtain ⟨d, hd, heq⟩ := List.mem_map.mp hmem
      obtain ⟨x', y', hxy', hx'⟩ := hpath d hd
      rw [h.injective hxy' hxy hx' hx heq] at hd
      exact hc hd
    have hbelow : ∀ d ∈ c :: path, ∃ x y, R x y ∧ x.container? = some d :=
      List.forall_mem_cons.mpr ⟨⟨x, y, hxy, hx⟩, hpath⟩
    rw [← h.shape hxy hx]
    refine .of_parts (h.container hxy hx) hnew (List.forall₂_map_right_iff.mpr ?_)
    have hboth := (List.forall₂_and_left _ _).mpr ⟨ih, h.parts hxy hx⟩
    refine (hboth.imp fun part part' hpart => ?_).flip
    exact ⟨hpart.2.1.symm, hpart.1 hpart.2.2 hbelow⟩

end Store
end ScriptEngine
