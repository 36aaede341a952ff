import ScriptEngine.Proofs.Store.Graphs
import ScriptEngine.Value.Copy

/-!
# Clones

A clone enters each container below a value once: an empty container of the same kind is remembered
as its copy, what it holds is cloned in order, and then the copy is filled. While copies are only
remembered, not yet filled, everything else about them is settled already, so that a container that is
met again, further inside or later, is not entered again. Main statement: a clone has the same graph
as the value, all of it new, and nothing that was there has changed.
-/

namespace ScriptEngine
namespace Store

/-!
# One container
-/

/-- An empty container of the kind of another one. -/
def makeLike (s : Store) : Container → Container × Store
  | .list l =>
    let (id, s) := s.newList (Array.replicate (s.items l).size .null)
    (.list id, s)
  | .dict _ =>
    let (id, s) := s.newDict .empty
    (.dict id, s)
  | .inst i =>
    let inst := (s.instance? i).getD default
    (.inst s.instances.size, { s with instances := s.instances.push { inst with fields := .empty } })

/-- The store in which a container holds these values. -/
def filled (s : Store) (c : Container) (held : List (Text × Value)) : Store :=
  match c with
  | .list l =>
    { s with rows := s.rows.modify (s.window l).row fun r => { r with cells := (held.map (·.2)).toArray } }
  | .dict d => s.modifyDict d fun _ => ⟨held⟩
  | .inst i => { s with instances := s.instances.modify i fun x => { x with fields := ⟨held⟩ } }

variable {clone clone' : Cloning → Value → Value × Cloning}

theorem cloneEntries_cons (clone : Cloning → Value → Value × Cloning) (C : Cloning) (key : Text)
    (v : Value) (rest acc : List (Text × Value)) :
    cloneEntries clone C ((key, v) :: rest) acc =
      cloneEntries clone (clone C v).2 rest ((key, (clone C v).1) :: acc) :=
  rfl

/-- What was cloned before stands in front. -/
theorem cloneEntries_acc (clone : Cloning → Value → Value × Cloning) (C : Cloning)
    (entries acc : List (Text × Value)) :
    cloneEntries clone C entries acc =
      (acc.reverse ++ (cloneEntries clone C entries []).1, (cloneEntries clone C entries []).2) := by
  induction entries generalizing C acc with
  | nil => exact Prod.ext (List.append_nil _).symm rfl
  | cons entry rest ih =>
    obtain ⟨key, v⟩ := entry
    rw [cloneEntries_cons, cloneEntries_cons, ih, ih _ [_]]
    simp only [List.reverse_cons, List.reverse_nil, List.nil_append, List.append_assoc]

theorem cloneAll_eq (clone : Cloning → Value → Value × Cloning) (C : Cloning) (values : List Value)
    (acc : Array Value) :
    cloneAll clone C values acc =
      (acc ++ ((cloneEntries clone C (values.map fun v => (Text.empty, v)) []).1.map (·.2)).toArray,
        (cloneEntries clone C (values.map fun v => (Text.empty, v)) []).2) := by
  induction values generalizing C acc with
  | nil => exact Prod.ext (Array.append_empty).symm rfl
  | cons v rest ih =>
    show cloneAll clone (clone C v).2 rest (acc.push (clone C v).1) = _
    rw [ih, List.map_cons, cloneEntries_cons, cloneEntries_acc _ _ _ [_]]
    simp only [List.reverse_cons, List.reverse_nil, List.nil_append, List.cons_append, List.map_cons]
    refine Prod.ext ?_ rfl
    apply Array.toList_inj.mp
    simp only [Array.toList_append, Array.toList_push, List.append_assoc, List.cons_append,
      List.nil_append]

/-- Clones of containers, whatever their kind. -/
theorem cloneWithin_container (fuel : Nat) (C : Cloning) {c : Container} (hc : c.Within C.store) :
    cloneWithin (fuel + 1) C c.value =
      match C.find? c with
      | some v => (v, C)
      | none =>
        let c' := (C.store.makeLike c).1
        let (held, C₂) := cloneEntries (cloneWithin fuel)
          (Cloning.record { C with store := (C.store.makeLike c).2 } c c'.value) (C.store.holdings c) []
        (c'.value, { C₂ with store := C₂.store.filled c' held }) := by
  cases c with
  | list l =>
    unfold cloneWithin Container.value
    dsimp only
    cases C.find? (.list l) with
    | some v => rfl
    | none =>
      dsimp only
      rw [cloneAll_eq, Array.empty_append]
      rfl
  | dict d =>
    unfold cloneWithin Container.value
    rfl
  | inst i =>
    obtain ⟨inst, hinst⟩ : ∃ inst, C.store.instance? i = some inst := ⟨_, Array.getElem?_eq_getElem hc⟩
    unfold cloneWithin Container.value makeLike holdings
    dsimp only
    rw [hinst]
    rfl

variable {s s₁ s₂ : Store} {c d : Container}

/-- Making an empty container changes nothing else. -/
theorem makeLike_spec (hc : c.Within s) :
    s.Initial (s.makeLike c).2 ∧ ¬ (s.makeLike c).1.Within s ∧
      (s.makeLike c).1.Within (s.makeLike c).2 ∧
      (s.makeLike c).2.containerKind (s.makeLike c).1 = s.containerKind c := by
  cases c with
  | list l => exact ⟨.newList s _, Nat.lt_irrefl s.lists.size, size_lt_push _ _, rfl⟩
  | dict d => exact ⟨.newDict s _, Nat.lt_irrefl s.dicts.size, size_lt_push _ _, rfl⟩
  | inst i =>
    refine ⟨.pushInstance s _, Nat.lt_irrefl s.instances.size, size_lt_push _ _, ?_⟩
    obtain ⟨inst, hinst⟩ : ∃ inst, s.instances[i]? = some inst := ⟨_, Array.getElem?_eq_getElem hc⟩
    refine congrArg ContainerKind.record ?_
    unfold makeLike instanceType
    dsimp only
    rw [Array.getElem?_push_size, instance?, hinst]
    rfl

/-- Filling a new container changes nothing else. -/
structure Fills (s s₂ s₃ : Store) (c : Container) (held : List (Text × Value)) : Prop where
  initial : s.Initial s₃
  le : s₂.Le s₃
  closures : s₃.closures = s₂.closures
  kind : ∀ d, s₃.containerKind d = s₂.containerKind d
  held : s₃.holdings c = held
  others : ∀ d, d.Within s₂ → d ≠ c → s₃.holdings d = s₂.holdings d

theorem Initial.modifyRow (h : s.Initial s₂) {r : Nat} (hr : s.rows.size ≤ r) (f : Row → Row) :
    s.Initial { s₂ with rows := s₂.rows.modify r f } :=
  { h with
    le := { h.le with rows := Nat.le_trans h.le.rows (Nat.le_of_eq Array.size_modify.symm) }
    rows := fun i hi =>
      (getElem?_modify_ne (Nat.ne_of_gt (Nat.lt_of_lt_of_le hi hr))).trans (h.rows i hi)
    windows := fun l w hl hw =>
      ⟨(h.windows l w hl hw).1, Nat.lt_of_lt_of_eq (h.windows l w hl hw).2 Array.size_modify.symm⟩ }

theorem Initial.modifyDict (h : s.Initial s₂) {d : DictId} (hd : s.dicts.size ≤ d)
    (f : Table Value → Table Value) : s.Initial (s₂.modifyDict d f) :=
  { h with
    le := { h.le with dicts := Nat.le_trans h.le.dicts (Nat.le_of_eq Array.size_modify.symm) }
    dicts := fun i hi =>
      (getElem?_modify_ne (Nat.ne_of_gt (Nat.lt_of_lt_of_le hi hd))).trans (h.dicts i hi) }

theorem Initial.modifyInstance (h : s.Initial s₂) {i : InstanceId} (hi : s.instances.size ≤ i)
    (f : Instance → Instance) : s.Initial { s₂ with instances := s₂.instances.modify i f } :=
  { h with
    le := { h.le with instances := Nat.le_trans h.le.instances (Nat.le_of_eq Array.size_modify.symm) }
    instances := fun j hj =>
      (getElem?_modify_ne (Nat.ne_of_gt (Nat.lt_of_lt_of_le hj hi))).trans (h.instances j hj) }

/-- Only the list that was made last has the row that was made for it. -/
theorem Initial.row_ne {items : Array Value} (h : (s.newList items).2.Initial s₂)
    (hs : ∀ w ∈ s.lists, w.row < s.rows.size) {l : ListId} (hl : l < s₂.lists.size)
    (hne : l ≠ s.lists.size) : (s₂.window l).row ≠ s.rows.size := by
  by_cases hold : l < s.lists.size
  · have hsame : s₂.lists[l]? = s.lists[l]? := ((Initial.newList s items).trans h).lists l hold
    have hwindow : s₂.lists[l]? = some (s₂.window l) := window_eq hl
    exact Nat.ne_of_lt (hs _ (Array.mem_of_getElem? (hsame.symm.trans hwindow)))
  · have hlater : (s.newList items).2.lists.size ≤ l := by
      show (s.lists.push _).size ≤ l
      rw [Array.size_push]
      exact Nat.lt_of_le_of_ne (Nat.le_of_not_lt hold) hne.symm
    have hrow := (h.windows l _ hlater (window_eq hl)).1
    rw [show (s.newList items).2.rows.size = s.rows.size + 1 from Array.size_push _] at hrow
    exact Nat.ne_of_gt hrow

theorem items_filled {l : ListId} {held : List (Text × Value)} {row : Row}
    (hrow : s.rows[(s.window l).row]? = some row) (hsize : held.length = (s.window l).size) :
    (s.filled (.list l) held).items l = (held.map (·.2)).toArray := by
  have hcells : (s.filled (.list l) held).rowCells (s.window l).row = (held.map (·.2)).toArray := by
    unfold rowCells filled
    dsimp only
    rw [Array.getElem?_modify, if_pos rfl, hrow]
    rfl
  have hcount : (held.map (·.2)).toArray.size = (s.window l).size := by
    rw [List.size_toArray, List.length_map, hsize]
  unfold Store.items
  simp only [show (s.filled (.list l) held).window l = s.window l from rfl, hcells, hcount,
    beq_self_eq_true, if_true]

theorem fills_list (hs : ∀ w ∈ s.lists, w.row < s.rows.size) {items : Array Value}
    (h : (s.newList items).2.Initial s₂) {held : List (Text × Value)}
    (hkeys : held.map (·.1) = List.replicate items.size Text.empty) :
    s.Fills s₂ (s₂.filled (.list s.lists.size) held) (.list s.lists.size) held := by
  have hlist : s₂.lists[s.lists.size]? = some ⟨s.rows.size, items.size⟩ :=
    (h.lists _ (size_lt_push _ _)).trans Array.getElem?_push_size
  have hrow : s₂.rows[s.rows.size]? = some ⟨items, items.size⟩ :=
    (h.rows _ (size_lt_push _ _)).trans Array.getElem?_push_size
  have hwindow : s₂.window s.lists.size = ⟨s.rows.size, items.size⟩ := by
    unfold window
    rw [hlist]
    rfl
  have hlength : held.length = items.size := by
    rw [← List.length_map (·.1), hkeys, List.length_replicate]
  have hplace : s.rows.size ≤ (s₂.window s.lists.size).row :=
    Nat.le_of_eq (congrArg Window.row hwindow).symm
  refine ⟨((Initial.newList s items).trans h).modifyRow hplace _,
    { Le.refl s₂ with rows := Nat.le_of_eq Array.size_modify.symm }, rfl, fun _ => by rfl, ?_, ?_⟩
  · have hempty : held.map (fun e => (Text.empty, e.2)) = held := by
      refine (List.map_congr_left fun e he => ?_).trans (List.map_id held)
      have hkey : e.1 ∈ List.replicate items.size Text.empty := hkeys ▸ List.mem_map_of_mem he
      exact Prod.ext (List.eq_of_mem_replicate hkey).symm rfl
    unfold holdings
    dsimp only
    rw [items_filled (by rw [hwindow]; exact hrow) (by rw [hwindow]; exact hlength), List.map_map]
    exact hempty
  · intro d hd hne
    cases d with
    | list l =>
      have hother := h.row_ne hs hd fun heq => hne (congrArg Container.list heq)
      have hcells : (s₂.filled (.list s.lists.size) held).rowCells (s₂.window l).row =
          s₂.rowCells (s₂.window l).row := by
        unfold rowCells filled
        dsimp only
        rw [hwindow, getElem?_modify_ne hother.symm]
      unfold holdings Store.items
      simp only [show (s₂.filled (.list s.lists.size) held).window l = s₂.window l from rfl, hcells]
    | _ => rfl

theorem fills (hwindows : ∀ w ∈ s.lists, w.row < s.rows.size) (hc : c.Within s)
    (h : (s.makeLike c).2.Initial s₂) {held : List (Text × Value)}
    (hkeys : held.map (·.1) = (s.holdings c).map (·.1)) :
    s.Fills s₂ (s₂.filled (s.makeLike c).1 held) (s.makeLike c).1 held := by
  have hinitial := (makeLike_spec hc).1.trans h
  cases c with
  | list l =>
    refine fills_list hwindows h (hkeys.trans ?_)
    unfold holdings
    rw [List.map_map, Array.size_replicate, ← Array.length_toList]
    exact List.map_const'
  | dict d =>
    have hin : s.dicts.size < s₂.dicts.size := Nat.lt_of_lt_of_le (size_lt_push _ _) h.le.dicts
    refine ⟨hinitial.modifyDict (Nat.le_refl _) _,
      { Le.refl s₂ with dicts := Nat.le_of_eq Array.size_modify.symm }, rfl, fun _ => by rfl, ?_, ?_⟩
    · show (((s₂.dicts.modify s.dicts.size _)[s.dicts.size]?).getD .empty).entries = held
      rw [Array.getElem?_modify, if_pos rfl, Array.getElem?_eq_getElem hin]
      rfl
    · intro e he hne
      cases e with
      | dict e =>
        show (((s₂.dicts.modify s.dicts.size _)[e]?).getD .empty).entries = _
        rw [getElem?_modify_ne fun heq => hne (congrArg Container.dict heq.symm)]
        rfl
      | _ => rfl
  | inst i =>
    have hin : s.instances.size < s₂.instances.size :=
      Nat.lt_of_lt_of_le (size_lt_push _ _) h.le.instances
    refine ⟨hinitial.modifyInstance (Nat.le_refl _) _,
      { Le.refl s₂ with instances := Nat.le_of_eq Array.size_modify.symm }, rfl, ?_, ?_, ?_⟩
    · intro e
      cases e with
      | inst e =>
        refine congrArg ContainerKind.record ?_
        unfold instanceType filled makeLike
        dsimp only
        rw [Array.getElem?_modify]
        by_cases heq : s.instances.size = e
        · rw [if_pos heq]
          cases s₂.instances[e]? <;> rfl
        · rw [if_neg heq]
      | _ => rfl
    · show (((s₂.instances.modify s.instances.size _)[s.instances.size]?).map _).getD [] = held
      rw [Array.getElem?_modify, if_pos rfl, Array.getElem?_eq_getElem hin]
      rfl
    · intro e he hne
      cases e with
      | inst e =>
        show (((s₂.instances.modify s.instances.size _)[e]?).map _).getD [] = _
        rw [getElem?_modify_ne fun heq => hne (congrArg Container.inst heq.symm)]
        rfl
      | _ => rfl

/-!
# Remembered copies
-/

namespace Cloning

/-- The copy of the first container is the second one. -/
def Made (C : Cloning) (c c' : Container) : Prop :=
  (c, c'.value) ∈ C.made

/-- The copies made so far, of containers of the store at the beginning, are different new containers
of the same kinds. -/
structure Sound (s₀ : Store) (C : Cloning) : Prop where
  initial : s₀.Initial C.store
  keys : (C.made.map (·.1)).Nodup
  within : ∀ e ∈ C.made, e.1.Within s₀
  images : ∀ c v, (c, v) ∈ C.made → ∃ c', v = c'.value ∧ ¬ c'.Within s₀ ∧ c'.Within C.store ∧
    C.store.containerKind c' = s₀.containerKind c
  injective : ∀ c d v, (c, v) ∈ C.made → (d, v) ∈ C.made → c = d

/-- Cloning went on from the first state to the second: whatever was there is as it was, and the copies
that were added are new and filled. -/
structure Adds (s₀ : Store) (C C' : Cloning) : Prop where
  sound : C'.Sound s₀
  initial : C.store.Initial C'.store
  made : ∀ e ∈ C.made, e ∈ C'.made
  length : C.made.length ≤ C'.made.length
  filled : ∀ c c', C'.Made c c' → C.Made c c' ∨
    ¬ c'.Within C.store ∧ s₀.Matched C'.store C'.Made (s₀.holdings c) (C'.store.holdings c')

variable {s₀ s' : Store} {C C' C'' : Cloning} {c c' : Container} {v : Value}

theorem mem_of_find? (h : C.find? c = some v) : (c, v) ∈ C.made := by
  obtain ⟨⟨k, w⟩, hfind, rfl⟩ := Option.map_eq_some_iff.mp h
  have hmem := List.mem_of_find?_eq_some hfind
  have hkey := List.find?_some hfind
  rw [← beq_iff_eq.mp hkey]
  exact hmem

theorem not_mem_of_find? (h : C.find? c = none) : c ∉ C.made.map (·.1) := by
  intro hmem
  obtain ⟨e, he, rfl⟩ := List.mem_map.mp hmem
  exact List.find?_eq_none.mp (Option.map_eq_none_iff.mp h) e he (beq_self_eq_true _)

theorem Sound.find?_eq (h : C.Sound s₀) (hmem : (c, v) ∈ C.made) : C.find? c = some v := by
  cases hfind : C.find? c with
  | none => exact absurd (List.mem_map_of_mem hmem) (not_mem_of_find? hfind)
  | some w =>
    have hsame := List.inj_on_of_nodup_map h.keys (mem_of_find? hfind) hmem rfl
    rw [(Prod.mk.inj hsame).2]

theorem Sound.start (s₀ : Store) : Sound s₀ ⟨s₀, []⟩ where
  initial := .refl s₀
  keys := List.nodup_nil
  within _ h := absurd h List.not_mem_nil
  images _ _ h := absurd h List.not_mem_nil
  injective _ _ _ h := absurd h List.not_mem_nil

theorem Sound.length_le (h : C.Sound s₀) : C.made.length ≤ s₀.containers := by
  rw [← List.length_map (·.1)]
  refine Container.length_le_containers h.keys fun c hc => ?_
  obtain ⟨e, he, rfl⟩ := List.mem_map.mp hc
  exact h.within e he

theorem Sound.image (h : C.Sound s₀) (hmade : C.Made c c') : ¬ c'.Within s₀ ∧ c'.Within C.store ∧
    C.store.containerKind c' = s₀.containerKind c := by
  obtain ⟨d, heq, hd⟩ := h.images c _ hmade
  rwa [Container.value_injective heq]

/-- The store may go on by itself. -/
theorem Sound.goOn (h : C.Sound s₀) (hs : C.store.Initial s') : Sound s₀ { C with store := s' } where
  initial := h.initial.trans hs
  keys := h.keys
  within := h.within
  images := by
    intro c v hmem
    obtain ⟨c', hv, hnew, hin, hkind⟩ := h.images c v hmem
    exact ⟨c', hv, hnew, hin.mono hs.le, (hs.containerKind hin).trans hkind⟩
  injective := h.injective

/-- Before a container is entered, an empty one of its kind is remembered as its copy. -/
theorem Sound.record (h : C.Sound s₀) (hc : c.Within s₀) (hnone : C.find? c = none) :
    Sound s₀ (Cloning.record { C with store := (C.store.makeLike c).2 } c (C.store.makeLike c).1.value) := by
  obtain ⟨hinitial, hnew, hin, hkind⟩ := makeLike_spec (hc.mono h.initial.le)
  have hgo := h.goOn hinitial
  have hfresh : ∀ d v, (d, v) ∈ C.made → v ≠ (C.store.makeLike c).1.value := by
    rintro d v hmem rfl
    exact hnew (h.image hmem).2.1
  exact {
    initial := hgo.initial
    keys := List.nodup_cons.mpr ⟨not_mem_of_find? hnone, h.keys⟩
    within := List.forall_mem_cons.mpr ⟨hc, h.within⟩
    images := by
      intro d v hmem
      rcases List.mem_cons.mp hmem with heq | hmem
      · cases heq
        exact ⟨_, rfl, fun hold => hnew (hold.mono h.initial.le), hin,
          hkind.trans (h.initial.containerKind hc)⟩
      · exact hgo.images d v hmem
    injective := by
      intro d e v hd he
      rcases List.mem_cons.mp hd with hd | hd <;> rcases List.mem_cons.mp he with he | he
      · rw [(Prod.mk.inj hd).1, (Prod.mk.inj he).1]
      · exact absurd (Prod.mk.inj hd).2 (hfresh e v he)
      · exact absurd (Prod.mk.inj he).2 (hfresh d v hd)
      · exact h.injective d e v hd he }

theorem Adds.refl (h : C.Sound s₀) : Adds s₀ C C where
  sound := h
  initial := .refl _
  made _ he := he
  length := Nat.le_refl _
  filled _ _ h := Or.inl h

theorem Adds.goOn (h : C.Sound s₀) (hs : C.store.Initial s') : Adds s₀ C { C with store := s' } where
  sound := h.goOn hs
  initial := hs
  made _ he := he
  length := Nat.le_refl _
  filled _ _ h := Or.inl h

/-- What corresponds goes on to correspond. -/
theorem Adds.mirrors {x y : Value} (h : Adds s₀ C C') (hxy : s₀.Mirrors C.store C.Made x y) :
    s₀.Mirrors C'.store C'.Made x y :=
  hxy.mono (fun _ _ => h.made _) fun _ _ => h.initial.closure?

theorem Adds.trans (hs₀ : s₀.Closed) (h : Adds s₀ C C') (h' : Adds s₀ C' C'') : Adds s₀ C C'' where
  sound := h'.sound
  initial := h.initial.trans h'.initial
  made e he := h'.made e (h.made e he)
  length := Nat.le_trans h.length h'.length
  filled c c' hmade := by
    rcases h'.filled c c' hmade with hmade | ⟨hnew, hmatched⟩
    · refine (h.filled c c' hmade).imp_right fun hfilled => ⟨hfilled.1, ?_⟩
      rw [h'.initial.holdings (h.sound.initial.windows_lt hs₀.windows) (h.sound.image hmade).2.1]
      exact hfilled.2.mono (fun _ _ => h'.made _) fun _ _ => h'.initial.closure?
    · exact Or.inr ⟨fun hin => hnew (hin.mono h.initial.le), hmatched⟩

/-- After what the container holds was cloned, its copy is filled. -/
theorem Adds.fill (hs₀ : s₀.Closed) (h : C.Sound s₀) (hc : c.Within s₀)
    (hadds : Adds s₀
      (Cloning.record { C with store := (C.store.makeLike c).2 } c (C.store.makeLike c).1.value) C')
    {held : List (Text × Value)} (hheld : s₀.Matched C'.store C'.Made (s₀.holdings c) held) :
    Adds s₀ C { C' with store := C'.store.filled (C.store.makeLike c).1 held } := by
  have hwindows := h.initial.windows_lt hs₀.windows
  have hin := hc.mono h.initial.le
  have hkeys : held.map (·.1) = (C.store.holdings c).map (·.1) := by
    rw [h.initial.holdings hs₀.windows hc]
    exact hheld.keys.symm
  have hfills := fills hwindows hin hadds.initial hkeys
  have hclosures : ∀ b cl, C'.store.closure? b = some cl →
      (C'.store.filled (C.store.makeLike c).1 held).closure? b = some cl := by
    intro b cl hb
    unfold closure?
    rw [hfills.closures]
    exact hb
  have hspec := makeLike_spec hin
  refine ⟨⟨h.initial.trans hfills.initial, hadds.sound.keys, hadds.sound.within, ?_, hadds.sound.injective⟩,
    hfills.initial, fun e he => hadds.made e (List.mem_cons_of_mem _ he),
    Nat.le_trans (Nat.le_succ _) hadds.length, ?_⟩
  · intro d v hmem
    obtain ⟨d', hv, hnew, hin, hkind⟩ := hadds.sound.images d v hmem
    exact ⟨d', hv, hnew, hin.mono hfills.le, (hfills.kind d').trans hkind⟩
  · intro d d' hmade
    have hmono : ∀ {es es'}, s₀.Matched C'.store C'.Made es es' →
        s₀.Matched (C'.store.filled (C.store.makeLike c).1 held) C'.Made es es' :=
      fun hmatched => hmatched.mono (fun _ _ h => h) hclosures
    rcases hadds.filled d d' hmade with hbefore | ⟨hnew, hmatched⟩
    · rcases List.mem_cons.mp hbefore with heq | hbefore
      · obtain ⟨rfl, hvalue⟩ := Prod.mk.inj heq
        rw [Container.value_injective hvalue]
        exact Or.inr ⟨hspec.2.1, by rw [hfills.held]; exact hmono hheld⟩
      · exact Or.inl hbefore
    · -- a copy that was made meanwhile is not the one that is filled now
      have hother : d' ≠ (C.store.makeLike c).1 := fun heq => hnew (heq ▸ hspec.2.2.1)
      refine Or.inr ⟨fun hold => hnew (hold.mono hspec.1.le), ?_⟩
      rw [hfills.others d' (hadds.sound.image hmade).2.1 hother]
      exact hmono hmatched

end Cloning

/-!
# All containers
-/

/-- The value was cloned: cloning went on, and what came out corresponds to the value. -/
def Clones (s₀ : Store) (C : Cloning) (v : Value) (result : Value × Cloning) : Prop :=
  Cloning.Adds s₀ C result.2 ∧ s₀.Mirrors result.2.store result.2.Made v result.1

variable {s₀ : Store} {C : Cloning} {v : Value} {fuel : Nat}

/-- Entries are cloned one after the other. -/
theorem cloneEntries_adds (hs₀ : s₀.Closed)
    (hclone : ∀ C x, C.Sound s₀ → s₀.Has x → s₀.containers < C.made.length + fuel →
      s₀.Clones C x (clone C x))
    {entries : List (Text × Value)} (hentries : ∀ e ∈ entries, s₀.Has e.2) (hC : C.Sound s₀)
    (hfuel : s₀.containers < C.made.length + fuel) :
    Cloning.Adds s₀ C (cloneEntries clone C entries []).2 ∧
      s₀.Matched (cloneEntries clone C entries []).2.store (cloneEntries clone C entries []).2.Made
        entries (cloneEntries clone C entries []).1 := by
  induction entries generalizing C with
  | nil => exact ⟨.refl hC, .nil⟩
  | cons e rest ih =>
    obtain ⟨key, x⟩ := e
    obtain ⟨hx, hrest⟩ := List.forall_mem_cons.mp hentries
    obtain ⟨hadds, hmirrors⟩ := hclone C x hC hx hfuel
    have hlater : s₀.containers < (clone C x).2.made.length + fuel :=
      Nat.lt_of_lt_of_le hfuel (Nat.add_le_add_right hadds.length fuel)
    obtain ⟨hrestAdds, hmatched⟩ := ih hrest hadds.sound hlater
    rw [cloneEntries_cons, cloneEntries_acc]
    exact ⟨hadds.trans hs₀ hrestAdds, .cons ⟨rfl, hrestAdds.mirrors hmirrors⟩ hmatched⟩

/-- A container is cloned if what it holds is. -/
theorem clones_container (hs₀ : s₀.Closed)
    (hclone : ∀ C x, C.Sound s₀ → s₀.Has x → s₀.containers < C.made.length + fuel →
      s₀.Clones C x (cloneWithin fuel C x))
    (hC : C.Sound s₀) (hc : c.Within s₀) (hfuel : s₀.containers < C.made.length + (fuel + 1)) :
    s₀.Clones C c.value (cloneWithin (fuel + 1) C c.value) := by
  rw [cloneWithin_container fuel C (hc.mono hC.initial.le)]
  cases hfind : C.find? c with
  | some v =>
    have hmem := Cloning.mem_of_find? hfind
    obtain ⟨c', rfl, -⟩ := hC.images c v hmem
    exact ⟨.refl hC, .container hmem⟩
  | none =>
    have hrecord := hC.record hc hfind
    have hroom : s₀.containers < (C.made.length + 1) + fuel := by omega
    obtain ⟨hadds, hmatched⟩ := cloneEntries_adds hs₀ hclone (hs₀.holdings c) hrecord hroom
    rw [hC.initial.holdings hs₀.windows hc]
    exact ⟨.fill hs₀ hC hc hadds hmatched, .container (hadds.made _ List.mem_cons_self)⟩

theorem clones_closure (hC : C.Sound s₀) {a : ClosureId} (ha : s₀.Has (.closure a)) :
    s₀.Clones C (.closure a) (cloneWithin (fuel + 1) C (.closure a)) := by
  obtain ⟨cl, hold⟩ : ∃ cl, s₀.closure? a = some cl := ⟨_, Array.getElem?_eq_getElem ha⟩
  have hcopy : cloneWithin (fuel + 1) C (.closure a) =
      (.closure C.store.closures.size, { C with store := (C.store.newClosure cl).2 }) := by
    unfold cloneWithin copy
    dsimp only
    rw [hC.initial.closure? hold]
    rfl
  rw [hcopy]
  exact ⟨.goOn hC (.newClosure _ _), .closure hold Array.getElem?_push_size hC.initial.le.closures⟩

/-- With more fuel than there are containers left to enter, a value is cloned. -/
theorem clones_within (hs₀ : s₀.Closed) (hC : C.Sound s₀) (hv : s₀.Has v)
    (hfuel : s₀.containers < C.made.length + fuel) : s₀.Clones C v (cloneWithin fuel C v) := by
  induction fuel generalizing C v with
  | zero => exact absurd hfuel (Nat.not_lt_of_le hC.length_le)
  | succ fuel ih =>
    have hclone := fun C x hC hx hroom => @ih C x hC hx hroom
    cases v with
    | list l => exact clones_container hs₀ hclone hC (c := .list l) hv hfuel
    | dict d => exact clones_container hs₀ hclone hC (c := .dict d) hv hfuel
    | inst i => exact clones_container hs₀ hclone hC (c := .inst i) hv hfuel
    | closure a => exact clones_closure hC hv
    | _ => exact ⟨.refl hC, .leaf rfl fun _ => Value.noConfusion⟩

/-!
## Fuel
-/

theorem cloneEntries_congr
    (hclone : ∀ C x, C.Sound s₀ → s₀.Has x → s₀.containers < C.made.length + fuel →
      s₀.Clones C x (clone C x))
    (hsame : ∀ C x, C.Sound s₀ → s₀.Has x → s₀.containers < C.made.length + fuel →
      clone' C x = clone C x)
    {entries : List (Text × Value)} (hentries : ∀ e ∈ entries, s₀.Has e.2) (hC : C.Sound s₀)
    (hfuel : s₀.containers < C.made.length + fuel) (acc : List (Text × Value)) :
    cloneEntries clone' C entries acc = cloneEntries clone C entries acc := by
  induction entries generalizing C acc with
  | nil => rfl
  | cons e rest ih =>
    obtain ⟨key, x⟩ := e
    obtain ⟨hx, hrest⟩ := List.forall_mem_cons.mp hentries
    obtain ⟨hadds, -⟩ := hclone C x hC hx hfuel
    rw [cloneEntries_cons, cloneEntries_cons, hsame C x hC hx hfuel]
    exact ih hrest hadds.sound (Nat.lt_of_lt_of_le hfuel (Nat.add_le_add_right hadds.length fuel)) _

/-- More fuel than that changes nothing. -/
theorem cloneWithin_succ (hs₀ : s₀.Closed) (hC : C.Sound s₀) (hv : s₀.Has v)
    (hfuel : s₀.containers < C.made.length + fuel) :
    cloneWithin (fuel + 1) C v = cloneWithin fuel C v := by
  induction fuel generalizing C v with
  | zero => exact absurd hfuel (Nat.not_lt_of_le hC.length_le)
  | succ fuel ih =>
    have hcontainer : ∀ c : Container, c.Within s₀ →
        cloneWithin (fuel + 1 + 1) C c.value = cloneWithin (fuel + 1) C c.value := by
      intro c hc
      rw [cloneWithin_container _ C (hc.mono hC.initial.le), cloneWithin_container _ C (hc.mono hC.initial.le)]
      cases hfind : C.find? c with
      | some v => rfl
      | none =>
        have hroom : s₀.containers < (C.made.length + 1) + fuel := by omega
        dsimp only
        rw [hC.initial.holdings hs₀.windows hc, cloneEntries_congr
          (fun C x hC hx hroom => clones_within hs₀ hC hx hroom) (fun C x hC hx hroom => ih hC hx hroom)
          (hs₀.holdings c) (hC.record hc hfind) hroom []]
    cases v with
    | list l => exact hcontainer (.list l) hv
    | dict d => exact hcontainer (.dict d) hv
    | inst i => exact hcontainer (.inst i) hv
    | _ => rfl

theorem cloneWithin_eq (hs : s.Closed) (hv : s.Has v) (hfuel : s.containers < fuel) :
    cloneWithin fuel ⟨s, []⟩ v = cloneWithin (s.containers + 1) ⟨s, []⟩ v := by
  induction hfuel with
  | refl => rfl
  | @step n hle ih =>
    rw [← ih]
    refine cloneWithin_succ hs (.start s) hv ?_
    show s.containers < 0 + n
    rw [Nat.zero_add]
    exact hle

/-!
# Clones
-/

/-- The container that is remembered as the copy of a container. -/
def Cloning.image (C : Cloning) (c : Container) : Container :=
  ((C.find? c).bind Value.container?).getD c

theorem Cloning.Sound.image_eq {c c' : Container} (h : C.Sound s₀) (hmade : C.Made c c') :
    C.image c = c' := by
  unfold Cloning.image
  rw [h.find?_eq hmade, Option.bind_some, Container.container?_value]
  rfl

theorem Clones.filled {result : Value × Cloning} (h : s.Clones ⟨s, []⟩ v result) {c c' : Container}
    (hmade : result.2.Made c c') :
    s.Matched result.2.store result.2.Made (s.holdings c) (result.2.store.holdings c') := by
  rcases h.1.filled c c' hmade with hbefore | hfilled
  · exact absurd hbefore List.not_mem_nil
  · exact hfilled.2

/-- Every container below the value was entered. -/
theorem Clones.made {result : Value × Cloning} (h : s.Clones ⟨s, []⟩ v result) {c : Container}
    (hc : s.Reaches v c) : result.2.Made c (result.2.image c) := by
  suffices hmade : ∃ c', result.2.Made c c' by
    obtain ⟨c', hmade⟩ := hmade
    rwa [h.1.sound.image_eq hmade]
  obtain ⟨d, hd, hreach⟩ := hc
  induction hreach with
  | refl => exact (h.2.related hd).imp fun _ => And.left
  | tail _ hstep ih =>
    obtain ⟨b', hb⟩ := ih
    obtain ⟨e, he, hc⟩ := hstep
    obtain ⟨e', -, hmirrors⟩ := (h.filled hb).mem he
    exact (hmirrors.related hc).imp fun _ => And.left

theorem Clones.sameGraph {result : Value × Cloning} (h : s.Clones ⟨s, []⟩ v result) :
    s.SameGraph result.2.store result.2.image v result.1 := by
  have himage : ∀ c c', result.2.Made c c' → result.2.image c = c' := fun _ _ => h.1.sound.image_eq
  have hvalue := h.2.mono himage fun _ _ h => h
  have hholdings : ∀ c, s.Reaches v c → s.Matched result.2.store (result.2.image · = ·) (s.holdings c)
      (result.2.store.holdings (result.2.image c)) :=
    fun c hc => (h.filled (h.made hc)).mono himage fun _ _ h => h
  refine ⟨hvalue, fun c d hc hd heq => ?_, reaches_iff hvalue hholdings, fun c hc => ?_, hholdings⟩
  · have hmade := h.made hd
    rw [← heq] at hmade
    exact h.1.sound.injective c d _ (h.made hc) hmade
  · exact (h.1.sound.image (h.made hc)).2.2

/-- Cloning ends, going inward no more often than there are containers. Nothing that was there changes,
and the clone has the same graph as the value, with all containers new: sharing and cycles are as they
were, and the clone has the same text. -/
theorem clone_copies_graph {s : Store} {v : Value} (hs : s.Closed) (hv : s.Has v) :
    (∀ fuel, s.containers < fuel →
      s.clone v = ((cloneWithin fuel ⟨s, []⟩ v).1, (cloneWithin fuel ⟨s, []⟩ v).2.store)) ∧
    s.Initial (s.clone v).2 ∧
    (∃ f, s.SameGraph (s.clone v).2 f v (s.clone v).1 ∧
      ∀ c, s.Reaches v c → ¬ (f c).Within s ∧ (f c).Within (s.clone v).2) ∧
    (s.clone v).2.display (s.clone v).1 = s.display v ∧
    (s.clone v).2.repr (s.clone v).1 = s.repr v := by
  have hroom : s.containers < (Cloning.mk s []).made.length + (s.containers + 1) := by
    rw [List.length_nil]
    omega
  have hclones : s.Clones ⟨s, []⟩ v (cloneWithin (s.containers + 1) ⟨s, []⟩ v) :=
    clones_within hs (.start s) hv hroom
  have hgraph := hclones.sameGraph
  refine ⟨fun fuel hfuel => ?_, hclones.1.sound.initial, ⟨_, hgraph, fun c hc => ?_⟩, hgraph.display,
    hgraph.repr⟩
  · rw [cloneWithin_eq hs hv hfuel]
    rfl
  · have himage := hclones.1.sound.image (hclones.made hc)
    exact ⟨himage.1, himage.2.1⟩

/-- A list that holds itself and a dict with one instance under two keys; the instance holds the list
again, and a function. -/
def webOfKinds : Store :=
  { Store.empty with
    rows := #[⟨#[.list 0, .dict 0], 2⟩]
    lists := #[⟨0, 2⟩]
    dicts := #[⟨[("a", .inst 0), ("b", .inst 0)]⟩]
    instances := #[⟨.ofFields "T" ["x", "y"], ⟨[("x", .list 0), ("y", .closure 0)]⟩⟩]
    closures := #[default] }

theorem closed_webOfKinds : webOfKinds.Closed where
  windows := by decide
  holdings := by
    have hlist : webOfKinds.holdings (.list 0) =
        ([(Text.empty, .list 0), (Text.empty, .dict 0)] : List (Text × Value)) := by decide
    have hdict : webOfKinds.holdings (.dict 0) =
        ([("a", .inst 0), ("b", .inst 0)] : List (Text × Value)) := by decide
    have hinst : webOfKinds.holdings (.inst 0) =
        ([("x", .list 0), ("y", .closure 0)] : List (Text × Value)) := by decide
    intro c
    by_cases hc : c.Within webOfKinds
    · cases c with
      | list l =>
        rw [show l = 0 from Nat.lt_one_iff.mp hc, hlist]
        exact List.forall_mem_cons.mpr ⟨Nat.zero_lt_one, List.forall_mem_singleton.mpr Nat.zero_lt_one⟩
      | dict d =>
        rw [show d = 0 from Nat.lt_one_iff.mp hc, hdict]
        exact List.forall_mem_cons.mpr ⟨Nat.zero_lt_one, List.forall_mem_singleton.mpr Nat.zero_lt_one⟩
      | inst i =>
        rw [show i = 0 from Nat.lt_one_iff.mp hc, hinst]
        exact List.forall_mem_cons.mpr ⟨Nat.zero_lt_one, List.forall_mem_singleton.mpr Nat.zero_lt_one⟩
    · rw [holdings_eq_nil hc]
      exact fun _ he => absurd he List.not_mem_nil

theorem clone_copies_graph_web :
    webOfKinds.Closed ∧ webOfKinds.Has (.list 0) ∧
    webOfKinds.Initial (webOfKinds.clone (.list 0)).2 ∧
    (∃ f, webOfKinds.SameGraph (webOfKinds.clone (.list 0)).2 f (.list 0) (webOfKinds.clone (.list 0)).1) ∧
    (webOfKinds.clone (.list 0)).1 = .list 1 ∧
    (webOfKinds.clone (.list 0)).2.display (.list 1) =
      "[..., \x7b\"a\": T(x: ..., y: <func>), \"b\": T(x: ..., y: <func>)\x7d]" := by
  have hhas : webOfKinds.Has (.list 0) := Nat.zero_lt_one
  obtain ⟨-, hinitial, ⟨f, hgraph, -⟩, hdisplay, -⟩ := clone_copies_graph closed_webOfKinds hhas
  have hclone : (webOfKinds.clone (.list 0)).1 = .list 1 := by decide
  rw [hclone] at hdisplay
  exact ⟨closed_webOfKinds, hhas, hinitial, ⟨f, hgraph⟩, hclone, hdisplay.trans (by decide +kernel)⟩

end Store
end ScriptEngine
