import Mathlib.Logic.Relation
import ScriptEngine.Proofs.Number.Integers
import ScriptEngine.Proofs.Store.Printing

/-!
# Unfolded values

A value below which no container contains itself unfolds to a tree: what is shared in the store
stands in the tree once for every place that holds it. The text of such a value is the text of its
tree. Main statement: what is printed for a value, with dots where a container is inside itself and
nowhere else.
-/

namespace ScriptEngine

/-- A value with everything below it, without the objects that hold it. -/
inductive Tree where
  | leaf (l : Leaf)
  | node (shape : Shape) (parts : List (Text × Tree))

namespace Tree

instance : Inhabited Tree :=
  ⟨leaf .null⟩

mutual

/-- The text of a tree, with a string in quotes if `quote`. -/
def display (quote : Bool) : Tree → Text
  | leaf l => l.display quote
  | node shape parts => shape.frame (displayParts parts)

/-- The parts of a tree as texts. -/
def displayParts : List (Text × Tree) → List (Text × Text)
  | [] => []
  | (name, t) :: rest => (name, t.display true) :: displayParts rest

end

theorem displayParts_eq (parts : List (Text × Tree)) :
    displayParts parts = parts.map fun part => (part.1, part.2.display true) := by
  induction parts with
  | nil => rfl
  | cons part rest ih =>
    obtain ⟨name, t⟩ := part
    exact congrArg (List.cons _) ih

theorem display_node (quote : Bool) (shape : Shape) (parts : List (Text × Tree)) :
    (node shape parts).display quote =
      shape.frame (parts.map fun part => (part.1, part.2.display true)) := by
  rw [← displayParts_eq]
  rfl

end Tree

/-- No container is written as dots when it is written in full. -/
theorem Shape.frame_ne_dots (shape : Shape) (parts : List (Text × Text)) :
    shape.frame parts ≠ "..." := by
  intro heq
  have hclosing : ∃ b : UInt8, b ≠ 46 ∧ shape.closing.toList = [b] := by
    cases shape with
    | list => exact ⟨93, by decide, by decide⟩
    | dict => exact ⟨125, by decide, by decide⟩
    | record => exact ⟨41, by decide, rfl⟩
  obtain ⟨b, hb, hclosing⟩ := hclosing
  have hlast : (shape.frame parts).toList.getLast? = some b := by
    unfold frame
    rw [Text.toList_append, hclosing, List.getLast?_append]
    rfl
  have hdots : (Text.ofString "...").toList.getLast? = some 46 := by decide
  rw [heq, hdots] at hlast
  exact hb (Option.some.inj hlast).symm

namespace Store

/-- The first container holds the second one as a part. -/
def Below (s : Store) (c d : Container) : Prop :=
  ∃ part ∈ s.parts c, part.2.container? = some d

/-- No container that can be reached from the value is below itself. -/
def Acyclic (s : Store) (v : Value) : Prop :=
  ∀ c d, v.container? = some c → Relation.ReflTransGen s.Below c d → ¬ Relation.TransGen s.Below d d

/-- The tree that a value unfolds to. -/
inductive Unfolds (s : Store) : Value → Tree → Prop
  | leaf {v : Value} (h : v.container? = none) : Unfolds s v (.leaf (s.leaf v))
  | node {v : Value} {c : Container} {trees : Text × Value → Tree} (h : v.container? = some c)
    (hparts : ∀ part ∈ s.parts c, Unfolds s part.2 (trees part)) :
    Unfolds s v (.node (s.shape c) ((s.parts c).map fun part => (part.1, trees part)))

variable {s : Store} {v : Value} {c : Container} {path : List Container} {quote : Bool}
  {text : Text} {T T' : Tree}

theorem Unfolds.unique (h : s.Unfolds v T) (h' : s.Unfolds v T') : T = T' := by
  induction h generalizing T' with
  | leaf h =>
    cases h' with
    | leaf => rfl
    | node hsome => rw [h] at hsome; cases hsome
  | node h hparts ih =>
    cases h' with
    | leaf hnone => rw [h] at hnone; cases hnone
    | node hsome hparts' =>
      rw [h] at hsome
      cases hsome
      refine congrArg (Tree.node (s.shape _)) (List.map_congr_left fun part hpart => ?_)
      rw [ih part hpart (hparts' part hpart)]

/-!
# Trees and cycles
-/

theorem Acyclic.part (h : s.Acyclic v) (hv : v.container? = some c) {part : Text × Value}
    (hpart : part ∈ s.parts c) : s.Acyclic part.2 :=
  fun _ d he hreach => h c d hv (hreach.head ⟨part, hpart, he⟩)

/-- A value whose parts have no cycles has none. -/
theorem Acyclic.of_parts (hv : v.container? = some c) (h : ∀ part ∈ s.parts c, s.Acyclic part.2) :
    s.Acyclic v := by
  intro c' d hc' hreach hloop
  cases hv.symm.trans hc'
  cases hreach.cases_head with
  | inl heq =>
    subst heq
    -- the part by which the loop leaves the container is on the loop itself
    obtain ⟨e, hbelow, hback⟩ := Relation.TransGen.head'_iff.mp hloop
    obtain ⟨part, hpart, he⟩ := hbelow
    exact h part hpart e e he .refl (Relation.TransGen.tail' hback ⟨part, hpart, he⟩)
  | inr hstep =>
    obtain ⟨e, ⟨part, hpart, he⟩, hrest⟩ := hstep
    exact h part hpart e d he hrest hloop

theorem Unfolds.acyclic (h : s.Unfolds v T) : s.Acyclic v := by
  induction h with
  | leaf hv =>
    intro c d hc
    rw [hv] at hc
    cases hc
  | node hv _ ih => exact .of_parts hv ih

/-- Where nothing is below itself, what is printed is the text of a tree. -/
theorem Prints.unfolds (h : s.Prints path quote v text) (hacyclic : s.Acyclic v)
    (hpath : ∀ d ∈ path, ∀ c, v.container? = some c → Relation.TransGen s.Below d c) :
    ∃ T, s.Unfolds v T ∧ T.display quote = text := by
  induction h with
  | leaf hv => exact ⟨_, .leaf hv, rfl⟩
  | again hv hc => exact absurd (hpath _ hc _ hv) (hacyclic _ _ hv .refl)
  | @full path quote v c texts hv hc hparts ih =>
    have htrees : ∀ part ∈ s.parts c,
        ∃ T, s.Unfolds part.2 T ∧ T.display true = texts part.2 := by
      intro part hpart
      refine ih part hpart (hacyclic.part hv hpart) (List.forall_mem_cons.mpr ⟨?_, ?_⟩)
      · exact fun d hd => .single ⟨part, hpart, hd⟩
      · exact fun d hd e he => (hpath d hd c hv).tail ⟨part, hpart, he⟩
    choose! trees hunfolds hdisplay using htrees
    refine ⟨_, .node hv hunfolds, ?_⟩
    rw [Tree.display_node, List.map_map]
    refine congrArg (s.shape c).frame (List.map_congr_left fun part hpart => ?_)
    exact Prod.ext rfl (hdisplay part hpart)

theorem Acyclic.unfolds (h : s.Acyclic v) : ∃ T, s.Unfolds v T := by
  obtain ⟨T, hT, -⟩ := (prints_display s v).unfolds h fun _ hd => absurd hd List.not_mem_nil
  exact ⟨T, hT⟩

theorem Unfolds.prints (h : s.Unfolds v T) (htext : s.Prints [] quote v text) :
    text = T.display quote := by
  obtain ⟨T', hT', heq⟩ := htext.unfolds h.acyclic fun _ hd => absurd hd List.not_mem_nil
  rw [h.unique hT', heq]

/-!
# What is printed
-/

theorem Prints.text_eq_dots_iff (h : s.Prints path quote v text) (hv : v.container? = some c) :
    text = "..." ↔ c ∈ path := by
  cases h with
  | leaf hnone => rw [hv] at hnone; cases hnone
  | again hsome hc =>
    cases hv.symm.trans hsome
    exact ⟨fun _ => hc, fun _ => rfl⟩
  | full hsome hc =>
    cases hv.symm.trans hsome
    exact ⟨fun heq => absurd heq (Shape.frame_ne_dots _ _), fun hmem => absurd hmem hc⟩

theorem Prints.parts (h : s.Prints path quote v text) (hv : v.container? = some c) (hc : c ∉ path) :
    ∃ texts : Value → Text, (∀ part ∈ s.parts c, s.Prints (c :: path) true part.2 (texts part.2)) ∧
      text = (s.shape c).frame ((s.parts c).map fun part => (part.1, texts part.2)) := by
  cases h with
  | leaf hnone => rw [hv] at hnone; cases hnone
  | again hsome hmem =>
    cases hv.symm.trans hsome
    exact absurd hmem hc
  | full hsome _ hparts =>
    cases hv.symm.trans hsome
    exact ⟨_, hparts, rfl⟩

/-- With enough fuel the writer ends with the text, all marks removed. -/
theorem Prints.write (h : s.Prints [] quote v text) {fuel : Nat} (hfuel : s.containers < fuel) :
    s.write fuel quote v [] = (text, []) := by
  have hwithin : s.Prints [] quote v (s.showWithin fuel [] quote v) :=
    prints_showWithin List.nodup_nil (fun _ hc => absurd hc List.not_mem_nil)
      (by rw [List.length_nil]; omega) quote v
  rw [write_eq, h.unique hwithin]

/-- Printing ends on every store: going inward as many times as there are containers gives the one
text of the value, in which a container stands as dots exactly where it is inside itself, and in full
with all its parts everywhere else. A value has no cycles iff it unfolds to a tree, and then the text
is that of the tree, whatever the store shares. -/
theorem printing_is_cycle_safe (s : Store) (v : Value) :
    (∀ quote, ∃ text, s.Prints [] quote v text ∧ (∀ text', s.Prints [] quote v text' → text' = text) ∧
      ∀ fuel, s.containers < fuel → s.write fuel quote v [] = (text, [])) ∧
    s.Prints [] false v (s.display v) ∧
    s.Prints [] true v (s.repr v) ∧
    (∀ path quote x text c, s.Prints path quote x text → x.container? = some c →
      (text = "..." ↔ c ∈ path) ∧
      (c ∉ path → ∃ texts : Value → Text,
        (∀ part ∈ s.parts c, s.Prints (c :: path) true part.2 (texts part.2)) ∧
        text = (s.shape c).frame ((s.parts c).map fun part => (part.1, texts part.2)))) ∧
    (s.Acyclic v ↔ ∃ T, s.Unfolds v T) ∧
    ∀ T, s.Unfolds v T → s.display v = T.display false ∧ s.repr v = T.display true := by
  refine ⟨fun quote => ?_, prints_display s v, prints_repr s v, ?_, ?_, ?_⟩
  · obtain ⟨text, htext⟩ : ∃ text, s.Prints [] quote v text := by
      cases quote with
      | false => exact ⟨_, prints_display s v⟩
      | true => exact ⟨_, prints_repr s v⟩
    exact ⟨text, htext, fun _ h => h.unique htext, fun _ hfuel => htext.write hfuel⟩
  · exact fun _ _ _ _ _ h hc => ⟨h.text_eq_dots_iff hc, h.parts hc⟩
  · exact ⟨Acyclic.unfolds, fun ⟨_, h⟩ => h.acyclic⟩
  · exact fun T h => ⟨h.prints (prints_display s v), h.prints (prints_repr s v)⟩

/-- A list that holds itself behind a Boolean, and one that holds another list twice. -/
def loopAndTwins : Store :=
  { Store.empty with
    rows := #[⟨#[.boolean true, .list 0], 2⟩, ⟨#[.null], 1⟩, ⟨#[.list 1, .list 1], 2⟩]
    lists := #[⟨0, 2⟩, ⟨1, 1⟩, ⟨2, 2⟩] }

example : loopAndTwins.display (.list 0) = "[true, ...]" := by decide

example : loopAndTwins.display (.list 2) = "[[null], [null]]" := by decide

end Store
end ScriptEngine
