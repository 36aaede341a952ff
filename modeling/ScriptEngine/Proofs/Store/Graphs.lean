import Mathlib.Logic.Relation
import ScriptEngine.Proofs.Store.Copies
import ScriptEngine.Proofs.Store.Printing

/-!
# Graphs of containers

A container holds values, and some of these are containers again. Two values have the same graph if
the containers that can be reached from them are in one-to-one correspondence, are of the same kinds
and hold corresponding values. Values with the same graph have the same text.
-/

namespace ScriptEngine

namespace Container

/-- The container as a value. -/
def value : Container → Value
  | list l => .list l
  | dict d => .dict d
  | inst i => .inst i

@[simp] theorem container?_value (c : Container) : c.value.container? = some c := by
  cases c <;> rfl

theorem eq_value {v : Value} {c : Container} (h : v.container? = some c) : v = c.value := by
  cases v <;> cases h <;> rfl

theorem value_injective {c d : Container} (h : c.value = d.value) : c = d := by
  have hsame := congrArg Value.container? h
  rw [container?_value, container?_value] at hsame
  exact Option.some.inj hsame

theorem Within.mono {s s' : Store} {c : Container} (h : c.Within s) (hle : s.Le s') : c.Within s' := by
  cases c with
  | list => exact Nat.lt_of_lt_of_le h hle.lists
  | dict => exact Nat.lt_of_lt_of_le h hle.dicts
  | inst => exact Nat.lt_of_lt_of_le h hle.instances

end Container

/-- What kind of container an object is. An instance has a type besides. -/
inductive ContainerKind where
  | list
  | dict
  | record (type : TypeInfo)

namespace Store

def containerKind (s : Store) : Container → ContainerKind
  | .list _ => .list
  | .dict _ => .dict
  | .inst i => .record (s.instanceType i)

/-- What a container holds in order: items, values under their keys, fields under their names. -/
def holdings (s : Store) : Container → List (Text × Value)
  | .list l => (s.items l).toList.map fun v => (Text.empty, v)
  | .dict d => (s.dict d).entries
  | .inst i => ((s.instance? i).map (·.fields.entries)).getD []

/-- An object that is not in the store holds nothing. -/
theorem holdings_eq_nil {s : Store} {c : Container} (h : ¬ c.Within s) : s.holdings c = [] := by
  cases c with
  | inst i =>
    unfold holdings instance?
    dsimp only
    rw [Array.getElem?_eq_none (Nat.le_of_not_lt h)]
    rfl
  | list | dict => exact parts_eq_nil h

/-- The first container holds the second one. -/
def Holding (s : Store) (c d : Container) : Prop :=
  ∃ e ∈ s.holdings c, e.2.container? = some d

/-- The container can be reached from the value. -/
def Reaches (s : Store) (v : Value) (c : Container) : Prop :=
  ∃ d, v.container? = some d ∧ Relation.ReflTransGen s.Holding d c

/-- Every list has its row, and every object that a container holds is in the store. -/
structure Closed (s : Store) : Prop where
  windows : ∀ w ∈ s.lists, w.row < s.rows.size
  holdings : ∀ c, ∀ e ∈ s.holdings c, s.Has e.2

theorem Scoped.closed {s : Store} (h : s.Scoped) : s.Closed where
  windows := h.windows
  holdings := by
    intro c e he
    cases c with
    | list l =>
      obtain ⟨v, hv, rfl⟩ := List.mem_map.mp he
      exact h.items l v (Array.mem_toList_iff.mp hv)
    | dict d => exact h.dict d e he
    | inst i =>
      unfold Store.holdings at he
      dsimp only at he
      cases hi : s.instance? i with
      | none =>
        rw [hi] at he
        cases he
      | some inst =>
        rw [hi] at he
        exact h.instances inst (Array.mem_of_getElem? hi) e he

/-!
# Stores that go on
-/

/-- The second store has all objects and frames of the first one as they were. Lists that are new in
it have new rows. -/
structure Initial (s s' : Store) : Prop where
  le : s.Le s'
  rows : ∀ i, i < s.rows.size → s'.rows[i]? = s.rows[i]?
  lists : ∀ i, i < s.lists.size → s'.lists[i]? = s.lists[i]?
  dicts : ∀ i, i < s.dicts.size → s'.dicts[i]? = s.dicts[i]?
  instances : ∀ i, i < s.instances.size → s'.instances[i]? = s.instances[i]?
  closures : ∀ i, i < s.closures.size → s'.closures[i]? = s.closures[i]?
  frames : s'.frames = s.frames
  windows : ∀ l w, s.lists.size ≤ l → s'.lists[l]? = some w →
    s.rows.size ≤ w.row ∧ w.row < s'.rows.size

section
variable {s s' s'' : Store} {c : Container}

theorem Initial.refl (s : Store) : s.Initial s where
  le := .refl s
  rows _ _ := rfl
  lists _ _ := rfl
  dicts _ _ := rfl
  instances _ _ := rfl
  closures _ _ := rfl
  frames := rfl
  windows l w hl hw := by
    rw [Array.getElem?_eq_none hl] at hw
    cases hw

theorem Initial.trans (h : s.Initial s') (h' : s'.Initial s'') : s.Initial s'' where
  le := h.le.trans h'.le
  rows i hi := (h'.rows i (Nat.lt_of_lt_of_le hi h.le.rows)).trans (h.rows i hi)
  lists i hi := (h'.lists i (Nat.lt_of_lt_of_le hi h.le.lists)).trans (h.lists i hi)
  dicts i hi := (h'.dicts i (Nat.lt_of_lt_of_le hi h.le.dicts)).trans (h.dicts i hi)
  instances i hi := (h'.instances i (Nat.lt_of_lt_of_le hi h.le.instances)).trans (h.instances i hi)
  closures i hi := (h'.closures i (Nat.lt_of_lt_of_le hi h.le.closures)).trans (h.closures i hi)
  frames := h'.frames.trans h.frames
  windows l w hl hw := by
    by_cases hl' : l < s'.lists.size
    · rw [h'.lists l hl'] at hw
      have hrow := h.windows l w hl hw
      exact ⟨hrow.1, Nat.lt_of_lt_of_le hrow.2 h'.le.rows⟩
    · have hrow := h'.windows l w (Nat.le_of_not_lt hl') hw
      exact ⟨Nat.le_trans h.le.rows hrow.1, hrow.2⟩

/-- Where lists have their rows, they go on to have them. -/
theorem Initial.windows_lt (h : s.Initial s') (hs : ∀ w ∈ s.lists, w.row < s.rows.size) :
    ∀ w ∈ s'.lists, w.row < s'.rows.size := by
  intro w hw
  obtain ⟨l, hl⟩ := Array.mem_iff_getElem?.mp hw
  by_cases hold : l < s.lists.size
  · rw [h.lists l hold] at hl
    exact Nat.lt_of_lt_of_le (hs w (Array.mem_of_getElem? hl)) h.le.rows
  · exact (h.windows l w (Nat.le_of_not_lt hold) hl).2

theorem Initial.items (h : s.Initial s') (hs : ∀ w ∈ s.lists, w.row < s.rows.size) {l : ListId}
    (hl : l < s.lists.size) : s'.items l = s.items l := by
  have hwindow : s'.window l = s.window l := by
    unfold window
    rw [h.lists l hl]
  have hcells : s'.rowCells (s.window l).row = s.rowCells (s.window l).row := by
    unfold rowCells
    rw [h.rows _ (hs _ (Array.mem_of_getElem? (window_eq hl)))]
  unfold Store.items
  rw [hwindow]
  dsimp only
  rw [hcells]

theorem Initial.holdings (h : s.Initial s') (hs : ∀ w ∈ s.lists, w.row < s.rows.size)
    (hc : c.Within s) : s'.holdings c = s.holdings c := by
  unfold Store.holdings
  cases c with
  | list l =>
    dsimp only
    rw [h.items hs hc]
  | dict d =>
    unfold dict
    dsimp only
    rw [h.dicts d hc]
  | inst i =>
    unfold instance?
    dsimp only
    rw [h.instances i hc]

theorem Initial.containerKind (h : s.Initial s') (hc : c.Within s) :
    s'.containerKind c = s.containerKind c := by
  cases c with
  | inst i =>
    unfold Store.containerKind instanceType
    dsimp only
    rw [h.instances i hc]
  | _ => rfl

theorem Initial.closure? (h : s.Initial s') {b : ClosureId} {cl : Closure} (hb : s.closure? b = some cl) :
    s'.closure? b = some cl :=
  (h.closures b (Array.getElem?_eq_some_iff.mp hb).1).trans hb

theorem Initial.newList (s : Store) (items : Array Value) : s.Initial (s.newList items).2 where
  le := ⟨size_le_push _ _, size_le_push _ _, Nat.le_refl _, Nat.le_refl _, Nat.le_refl _,
    Nat.le_refl _⟩
  rows _ hi := getElem?_push_old hi
  lists _ hi := getElem?_push_old hi
  dicts _ _ := rfl
  instances _ _ := rfl
  closures _ _ := rfl
  frames := rfl
  windows l w hl hw := by
    have hin : l < (s.lists.push ⟨s.rows.size, items.size⟩).size :=
      (Array.getElem?_eq_some_iff.mp hw).1
    rw [Array.size_push] at hin
    have hlast : l = s.lists.size := Nat.le_antisymm (Nat.le_of_lt_succ hin) hl
    subst hlast
    have hwindow : w = ⟨s.rows.size, items.size⟩ :=
      (Option.some.inj (Array.getElem?_push_size.symm.trans hw)).symm
    subst hwindow
    exact ⟨Nat.le_refl _, size_lt_push _ _⟩

theorem Initial.newDict (s : Store) (entries : Table Value) : s.Initial (s.newDict entries).2 where
  le := ⟨Nat.le_refl _, Nat.le_refl _, size_le_push _ _, Nat.le_refl _, Nat.le_refl _, Nat.le_refl _⟩
  rows _ _ := rfl
  lists _ _ := rfl
  dicts _ hi := getElem?_push_old hi
  instances _ _ := rfl
  closures _ _ := rfl
  frames := rfl
  windows := (Initial.refl s).windows

theorem Initial.pushInstance (s : Store) (inst : Instance) :
    s.Initial { s with instances := s.instances.push inst } where
  le := ⟨Nat.le_refl _, Nat.le_refl _, Nat.le_refl _, size_le_push _ _, Nat.le_refl _, Nat.le_refl _⟩
  rows _ _ := rfl
  lists _ _ := rfl
  dicts _ _ := rfl
  instances _ hi := getElem?_push_old hi
  closures _ _ := rfl
  frames := rfl
  windows := (Initial.refl s).windows

theorem Initial.newClosure (s : Store) (cl : Closure) : s.Initial (s.newClosure cl).2 where
  le := ⟨Nat.le_refl _, Nat.le_refl _, Nat.le_refl _, Nat.le_refl _, size_le_push _ _, Nat.le_refl _⟩
  rows _ _ := rfl
  lists _ _ := rfl
  dicts _ _ := rfl
  instances _ _ := rfl
  closures _ hi := getElem?_push_old hi
  frames := rfl
  windows := (Initial.refl s).windows

end

/-!
# Corresponding values
-/

/-- Values of two stores correspond: containers that the relation relates, closures that are the same
field by field, the one in the second store being new, and otherwise the very same value. -/
inductive Mirrors (s t : Store) (R : Container → Container → Prop) : Value → Value → Prop
  | container {c c' : Container} (h : R c c') : Mirrors s t R c.value c'.value
  | closure {a b : ClosureId} {cl : Closure} (ha : s.closure? a = some cl) (hb : t.closure? b = some cl)
    (hnew : s.closures.size ≤ b) : Mirrors s t R (.closure a) (.closure b)
  | leaf {x : Value} (h : x.container? = none) (hclosure : ∀ a, x ≠ .closure a) : Mirrors s t R x x

/-- Containers hold corresponding values under the same keys in the same order. -/
def Matched (s t : Store) (R : Container → Container → Prop) (held held' : List (Text × Value)) : Prop :=
  List.Forall₂ (fun e e' => e.1 = e'.1 ∧ s.Mirrors t R e.2 e'.2) held held'

/-- The values have the same graph: the map takes the containers that can be reached from the first
one to those that can be reached from the second, one to one, to containers of the same kind that hold
corresponding values. -/
structure SameGraph (s t : Store) (f : Container → Container) (v w : Value) : Prop where
  value : s.Mirrors t (f · = ·) v w
  injective : ∀ c d, s.Reaches v c → s.Reaches v d → f c = f d → c = d
  onto : ∀ c', t.Reaches w c' ↔ ∃ c, s.Reaches v c ∧ f c = c'
  kind : ∀ c, s.Reaches v c → t.containerKind (f c) = s.containerKind c
  holdings : ∀ c, s.Reaches v c → s.Matched t (f · = ·) (s.holdings c) (t.holdings (f c))

section
variable {s t t' : Store} {R R' : Container → Container → Prop} {f : Container → Container}
  {v w x y : Value} {c d : Container} {es es' : List (Text × Value)}

theorem Mirrors.mono (h : s.Mirrors t R x y) (hR : ∀ c c', R c c' → R' c c')
    (hclosures : ∀ b cl, t.closure? b = some cl → t'.closure? b = some cl) : s.Mirrors t' R' x y := by
  cases h with
  | container h => exact .container (hR _ _ h)
  | closure ha hb hnew => exact .closure ha (hclosures _ _ hb) hnew
  | leaf h hclosure => exact .leaf h hclosure

theorem Mirrors.related (h : s.Mirrors t R x y) (hx : x.container? = some c) :
    ∃ c', R c c' ∧ y.container? = some c' := by
  cases h with
  | @container d d' h =>
    rw [Container.container?_value] at hx
    cases hx
    exact ⟨d', h, d'.container?_value⟩
  | closure => cases hx
  | leaf h =>
    rw [h] at hx
    cases hx

theorem Mirrors.related_right (h : s.Mirrors t R x y) {c' : Container} (hy : y.container? = some c') :
    ∃ c, R c c' ∧ x.container? = some c := by
  cases h with
  | @container d d' h =>
    rw [Container.container?_value] at hy
    cases hy
    exact ⟨d, h, d.container?_value⟩
  | closure => cases hy
  | leaf h =>
    rw [h] at hy
    cases hy

theorem Mirrors.leaf_eq (h : s.Mirrors t R x y) (hx : x.container? = none) :
    y.container? = none ∧ t.leaf y = s.leaf x := by
  cases h with
  | container =>
    rw [Container.container?_value] at hx
    cases hx
  | closure ha hb =>
    refine ⟨rfl, ?_⟩
    unfold Store.leaf
    dsimp only
    rw [ha, hb]
  | leaf h hclosure =>
    refine ⟨h, ?_⟩
    cases x with
    | closure a => exact absurd rfl (hclosure a)
    | _ => rfl

theorem Matched.mono (h : s.Matched t R es es') (hR : ∀ c c', R c c' → R' c c')
    (hclosures : ∀ b cl, t.closure? b = some cl → t'.closure? b = some cl) : s.Matched t' R' es es' :=
  h.imp fun _ _ he => ⟨he.1, he.2.mono hR hclosures⟩

theorem Matched.keys (h : s.Matched t R es es') : es.map (·.1) = es'.map (·.1) := by
  induction h with
  | nil => rfl
  | cons hhead _ ih => rw [List.map_cons, List.map_cons, hhead.1, ih]

theorem Matched.mem_right (h : s.Matched t R es es') {e' : Text × Value} (he : e' ∈ es') :
    ∃ e ∈ es, s.Mirrors t R e.2 e'.2 := by
  induction h with
  | nil => cases he
  | cons hhead _ ih =>
    rcases List.mem_cons.mp he with rfl | he
    · exact ⟨_, List.mem_cons_self, hhead.2⟩
    · exact (ih he).imp fun _ h => ⟨List.mem_cons_of_mem _ h.1, h.2⟩

theorem Matched.mem (h : s.Matched t R es es') {e : Text × Value} (he : e ∈ es) :
    ∃ e' ∈ es', s.Mirrors t R e.2 e'.2 := by
  induction h with
  | nil => cases he
  | cons hhead _ ih =>
    rcases List.mem_cons.mp he with rfl | he
    · exact ⟨_, List.mem_cons_self, hhead.2⟩
    · exact (ih he).imp fun _ h => ⟨List.mem_cons_of_mem _ h.1, h.2⟩

theorem Matched.lookup (h : s.Matched t R es es') (key : Text) :
    s.Mirrors t R ((Table.lookup key es).getD .null) ((Table.lookup key es').getD .null) := by
  induction h with
  | nil => exact .leaf rfl fun _ => Value.noConfusion
  | @cons e e' _ _ hhead _ ih =>
    unfold Table.lookup
    rw [← hhead.1]
    by_cases hkey : e.1 = key
    · rw [if_pos hkey, if_pos hkey]
      exact hhead.2
    · rw [if_neg hkey, if_neg hkey]
      exact ih

theorem Reaches.here (h : v.container? = some c) : s.Reaches v c :=
  ⟨c, h, .refl⟩

theorem Reaches.held (h : s.Reaches v c) {e : Text × Value} (he : e ∈ s.holdings c)
    (hd : e.2.container? = some d) : s.Reaches v d := by
  obtain ⟨c₀, hv, hreach⟩ := h
  exact ⟨c₀, hv, hreach.tail ⟨e, he, hd⟩⟩

/-- Where everything that can be reached is matched, the same can be reached on both sides. -/
theorem reaches_iff (hvalue : s.Mirrors t (f · = ·) v w)
    (hheld : ∀ c, s.Reaches v c → s.Matched t (f · = ·) (s.holdings c) (t.holdings (f c)))
    (c' : Container) : t.Reaches w c' ↔ ∃ c, s.Reaches v c ∧ f c = c' := by
  constructor
  · rintro ⟨d', hw, hreach⟩
    induction hreach with
    | refl =>
      obtain ⟨d, hd, hv⟩ := hvalue.related_right hw
      exact ⟨d, .here hv, hd⟩
    | tail _ hstep ih =>
      obtain ⟨b, hb, rfl⟩ := ih
      obtain ⟨e', he', hd'⟩ := hstep
      obtain ⟨e, he, hmirrors⟩ := (hheld b hb).mem_right he'
      obtain ⟨d, hd, hx⟩ := hmirrors.related_right hd'
      exact ⟨d, hb.held he hx, hd⟩
  · rintro ⟨c, ⟨d, hv, hreach⟩, rfl⟩
    induction hreach with
    | refl =>
      obtain ⟨_, rfl, hw⟩ := hvalue.related hv
      exact .here hw
    | @tail b c hreach hstep ih =>
      obtain ⟨e, he, hd⟩ := hstep
      obtain ⟨e', he', hmirrors⟩ := (hheld b ⟨d, hv, hreach⟩).mem he
      obtain ⟨_, rfl, hy⟩ := hmirrors.related hd
      exact ih.held he' hy

/-!
# Texts
-/

theorem field?_eq (s : Store) (i : InstanceId) (name : Text) :
    s.field? i name = Table.lookup name (s.holdings (.inst i)) := by
  unfold field? Store.holdings instance?
  dsimp only
  cases s.instances[i]? <;> rfl

/-- What is written of a container is what it holds, or null for a field that is missing. -/
theorem mem_parts {part : Text × Value} (h : part ∈ s.parts c) :
    (∃ e ∈ s.holdings c, e.2 = part.2) ∨ part.2 = .null := by
  cases c with
  | list | dict => exact Or.inl ⟨part, h, rfl⟩
  | inst i =>
    obtain ⟨name, -, rfl⟩ := List.mem_map.mp h
    rw [field?_eq]
    cases hv : Table.lookup name (s.holdings (.inst i)) with
    | none => exact Or.inr rfl
    | some v => exact Or.inl ⟨_, Table.mem_of_lookup hv, rfl⟩

theorem Matched.parts {c c' : Container} (h : s.Matched t R (s.holdings c) (t.holdings c'))
    (hkind : t.containerKind c' = s.containerKind c) : s.Matched t R (s.parts c) (t.parts c') := by
  cases c with
  | list l => cases c' with
    | list => exact h
    | _ => cases hkind
  | dict d => cases c' with
    | dict => exact h
    | _ => cases hkind
  | inst i => cases c' with
    | inst i' =>
      have htype : t.instanceType i' = s.instanceType i := ContainerKind.record.inj hkind
      unfold Matched Store.parts
      dsimp only
      rw [htype, List.forall₂_map_left_iff, List.forall₂_map_right_iff]
      refine List.forall₂_same.mpr fun name _ => ⟨rfl, ?_⟩
      rw [field?_eq, field?_eq]
      exact h.lookup name
    | _ => cases hkind

theorem shape_of_kind {c c' : Container} (hkind : t.containerKind c' = s.containerKind c) :
    t.shape c' = s.shape c := by
  cases c <;> cases c'
  case inst.inst i i' =>
    have htype : t.instanceType i' = s.instanceType i := ContainerKind.record.inj hkind
    unfold shape
    dsimp only
    rw [htype]
  case list.list | dict.dict => rfl
  all_goals cases hkind

/-- Values with the same graph look alike. -/
theorem SameGraph.likeness (h : s.SameGraph t f v w) : s.Likeness t f fun x y =>
    s.Mirrors t (f · = ·) x y ∧ ∀ c, x.container? = some c → s.Reaches v c where
  leaf := fun hxy hx => hxy.1.leaf_eq hx
  container := by
    intro x y c hxy hx
    obtain ⟨c', rfl, hy⟩ := hxy.1.related hx
    exact hy
  shape := fun hxy hx => shape_of_kind (h.kind _ (hxy.2 _ hx))
  parts := by
    intro x y c hxy hx
    have hc := hxy.2 c hx
    have hparts := (h.holdings c hc).parts (h.kind c hc)
    refine (List.forall₂_and_left _ _).mpr ⟨fun part hpart => ?_, hparts⟩ |>.imp
      fun part part' hpart => ⟨hpart.2.1, hpart.2.2, hpart.1⟩
    intro d hd
    rcases mem_parts hpart with ⟨e, he, heq⟩ | hnull
    · exact hc.held he (heq ▸ hd)
    · rw [hnull] at hd
      cases hd
  injective := fun hxy hxy' hx hx' heq => h.injective _ _ (hxy.2 _ hx) (hxy'.2 _ hx') heq

theorem SameGraph.display (h : s.SameGraph t f v w) : t.display w = s.display v :=
  (prints_display t w).unique (h.likeness.prints (prints_display s v) ⟨h.value, fun _ => .here⟩
    fun _ hc => absurd hc List.not_mem_nil)

theorem SameGraph.repr (h : s.SameGraph t f v w) : t.repr w = s.repr v :=
  (prints_repr t w).unique (h.likeness.prints (prints_repr s v) ⟨h.value, fun _ => .here⟩
    fun _ hc => absurd hc List.not_mem_nil)

end
end Store
end ScriptEngine
