import ScriptEngine.Proofs.Store.Contents

/-!
# Copies hold what was copied

A copy is a new object that holds what the copied one holds. Making it, giving it a name and binding it
leaves what every other object holds.
-/

namespace ScriptEngine

/-- What an object holds when it has got a name. -/
def Content.named (name : Text) : Content → Content
  | .code closure => .code (closure.map fun c => { c with name := name })
  | c => c

namespace Store

/-- The store in which a closure has the name, if the value is one. -/
def nameValue (s : Store) (v : Value) (name : Text) : Store :=
  match v with
  | .closure c =>
    { s with closures := s.closures.modify c fun closure => { closure with name := name } }
  | _ => s

/-- The store in which a name is bound to a copy of a value. -/
def bindCopy (s : Store) (f : FrameId) (name : Text) (v : Value) : Store :=
  ((s.copy v).2.nameValue (s.copy v).1 name).define f name (s.copy v).1

/-- Every object holds what it held, and every frame is as it was. -/
structure Intact (s s' : Store) : Prop where
  le : s.Le s'
  content : ∀ v, s.Has v → s'.content v = s.content v
  frames : ∀ f fr, s.frame? f = some fr → s'.frame? f = some fr

section
variable {s s' s'' : Store} {u v : Value}

theorem Intact.refl (s : Store) : s.Intact s :=
  ⟨.refl s, fun _ _ => rfl, fun _ _ h => h⟩

theorem Intact.trans (h : s.Intact s') (h' : s'.Intact s'') : s.Intact s'' where
  le := h.le.trans h'.le
  content v hv := (h'.content v (hv.mono h.le)).trans (h.content v hv)
  frames f fr hf := h'.frames f fr (h.frames f fr hf)

/-!
# New objects
-/

theorem getElem?_push_old {α : Type} {a : Array α} {x : α} {i : Nat} (h : i < a.size) :
    (a.push x)[i]? = a[i]? :=
  (Array.getElem?_push_lt h).trans (Array.getElem?_eq_getElem h).symm

theorem items_newListIn {items : Array Value} {capacity : Nat} :
    (s.newListIn items capacity).2.items s.lists.size = items := by
  have hwindow : (s.newListIn items capacity).2.window s.lists.size = ⟨s.rows.size, items.size⟩ := by
    show ((s.lists.push _)[s.lists.size]?).getD _ = _
    rw [Array.getElem?_push_size]
    rfl
  have hcells : (s.newListIn items capacity).2.rowCells s.rows.size = items := by
    unfold Store.rowCells
    rw [show (s.newListIn items capacity).2.rows[s.rows.size]? = some ⟨items, capacity⟩ from
      Array.getElem?_push_size]
  unfold Store.items
  simp only [hwindow, hcells, beq_self_eq_true, if_true]

theorem Intact.newListIn (hs : ∀ w ∈ s.lists, w.row < s.rows.size) (items : Array Value)
    (capacity : Nat) : s.Intact (s.newListIn items capacity).2 where
  le := ⟨size_le_push _ _, size_le_push _ _, Nat.le_refl _, Nat.le_refl _, Nat.le_refl _,
    Nat.le_refl _⟩
  content v hv := by
    refine content_congr ?_ (fun _ _ => rfl) (fun _ _ => rfl) (fun _ _ => rfl)
    rintro l rfl
    have hl : l < s.lists.size := hv
    have hwindow : (s.newListIn items capacity).2.window l = s.window l := by
      unfold window
      rw [show (s.newListIn items capacity).2.lists[l]? = s.lists[l]? from getElem?_push_old hl]
    have hrow : (s.newListIn items capacity).2.rowCells (s.window l).row = s.rowCells (s.window l).row := by
      unfold rowCells
      rw [show (s.newListIn items capacity).2.rows[(s.window l).row]? = s.rows[(s.window l).row]? from
        getElem?_push_old (hs _ (Array.mem_of_getElem? (window_eq hl)))]
    unfold Store.items
    simp only [hwindow, hrow]
  frames _ _ h := h

theorem Intact.newDict (s : Store) (entries : Table Value) : s.Intact (s.newDict entries).2 where
  le := ⟨Nat.le_refl _, Nat.le_refl _, size_le_push _ _, Nat.le_refl _, Nat.le_refl _, Nat.le_refl _⟩
  content v hv := by
    refine content_congr (fun _ _ => rfl) ?_ (fun _ _ => rfl) (fun _ _ => rfl)
    rintro d rfl
    exact getElem?_push_old hv
  frames _ _ h := h

theorem Intact.pushInstance (s : Store) (inst : Instance) :
    s.Intact { s with instances := s.instances.push inst } where
  le := ⟨Nat.le_refl _, Nat.le_refl _, Nat.le_refl _, size_le_push _ _, Nat.le_refl _, Nat.le_refl _⟩
  content v hv := by
    refine content_congr (fun _ _ => rfl) (fun _ _ => rfl) ?_ (fun _ _ => rfl)
    rintro i rfl
    exact getElem?_push_old hv
  frames _ _ h := h

theorem Intact.newClosure (s : Store) (cl : Closure) : s.Intact (s.newClosure cl).2 where
  le := ⟨Nat.le_refl _, Nat.le_refl _, Nat.le_refl _, Nat.le_refl _, size_le_push _ _, Nat.le_refl _⟩
  content v hv := by
    refine content_congr (fun _ _ => rfl) (fun _ _ => rfl) (fun _ _ => rfl) ?_
    rintro c rfl
    exact getElem?_push_old hv
  frames _ _ h := h

theorem Intact.newFrame (s : Store) (fr : Frame) : s.Intact (s.newFrame fr).2 where
  le := ⟨Nat.le_refl _, Nat.le_refl _, Nat.le_refl _, Nat.le_refl _, Nat.le_refl _, size_le_push _ _⟩
  content _ _ := content_congr (fun _ _ => rfl) (fun _ _ => rfl) (fun _ _ => rfl) (fun _ _ => rfl)
  frames _ _ hf := (getElem?_push_old (Array.getElem?_eq_some_iff.mp hf).1).trans hf

theorem Intact.copy (hs : ∀ w ∈ s.lists, w.row < s.rows.size) (v : Value) :
    s.Intact (s.copy v).2 := by
  cases v with
  | list l => exact .newListIn hs _ _
  | dict d => exact .newDict s _
  | closure c =>
    unfold Store.copy
    cases hc : s.closure? c with
    | none => simp only [hc]; exact .refl s
    | some cl => simp only [hc]; exact .newClosure s cl
  | inst i =>
    unfold Store.copy
    cases hi : s.instance? i with
    | none => simp only [hi]; exact .refl s
    | some inst => simp only [hi]; exact .pushInstance s inst
  | _ => exact .refl s

/-- The copy holds what the copied object holds. -/
theorem content_copy (s : Store) (v : Value) : (s.copy v).2.content (s.copy v).1 = s.content v := by
  cases v with
  | list l => exact congrArg Content.items items_newListIn
  | dict d =>
    refine congrArg Content.entries ?_
    show ((s.dicts.push (s.dict d))[s.dicts.size]?).getD _ = _
    rw [Array.getElem?_push_size]
    rfl
  | closure c =>
    unfold Store.copy
    cases hc : s.closure? c with
    | none => simp only [hc]
    | some cl =>
      simp only [hc]
      show Content.code ((s.closures.push cl)[s.closures.size]?) = .code (s.closure? c)
      rw [Array.getElem?_push_size, hc]
  | inst i =>
    unfold Store.copy
    cases hi : s.instance? i with
    | none => simp only [hi]
    | some inst =>
      simp only [hi]
      show Content.fields ((s.instances.push inst)[s.instances.size]?) = .fields (s.instance? i)
      rw [Array.getElem?_push_size, hi]
  | _ => rfl

theorem Scoped.copy (hs : s.Scoped) (v : Value) : (s.copy v).2.Scoped := by
  have hchanges : s.Changes (fun _ _ => False) (fun _ _ _ => False) (s.copy v).2 := .copy hs v
  exact hchanges.scoped (fun _ _ h => h.elim) hs

/-!
# Names
-/

theorem nameValue_le (s : Store) (v : Value) (name : Text) : s.Le (s.nameValue v name) := by
  cases v with
  | closure c => exact ⟨Nat.le_refl _, Nat.le_refl _, Nat.le_refl _, Nat.le_refl _,
      Nat.le_of_eq Array.size_modify.symm, Nat.le_refl _⟩
  | _ => exact .refl s

theorem frame?_nameValue (s : Store) (v : Value) (name : Text) (f : FrameId) :
    (s.nameValue v name).frame? f = s.frame? f := by
  cases v <;> rfl

theorem Scoped.nameValue (hs : s.Scoped) (v : Value) (name : Text) : (s.nameValue v name).Scoped := by
  cases v with
  | closure c => exact hs.scopes (.nameClosure s hs c name)
  | _ => exact hs

theorem content_nameValue (s : Store) (v : Value) (name : Text) :
    (s.nameValue v name).content v = (s.content v).named name := by
  cases v with
  | closure c =>
    show Content.code ((s.closures.modify c _)[c]?) = .code ((s.closures[c]?).map _)
    rw [Array.getElem?_modify, if_pos rfl]
  | _ => rfl

theorem content_nameValue_ne (hne : u ≠ v) (name : Text) :
    (s.nameValue v name).content u = s.content u := by
  cases v with
  | closure c =>
    refine content_congr (fun _ _ => rfl) (fun _ _ => rfl) (fun _ _ => rfl) ?_
    rintro c' rfl
    exact getElem?_modify_ne fun h => hne (congrArg Value.closure h.symm)
  | _ => rfl

theorem content_define (s : Store) (f : FrameId) (name : Text) (v : Value) :
    (s.define f name v).content u = s.content u :=
  content_congr (fun _ _ => rfl) (fun _ _ => rfl) (fun _ _ => rfl) (fun _ _ => rfl)

/-!
# Binding copies
-/

variable {f g : FrameId} {name : Text}

theorem bindCopy_le (s : Store) (f : FrameId) (name : Text) (v : Value) :
    s.Le (s.bindCopy f name v) := by
  refine ((Le.copy s v).trans (nameValue_le _ (s.copy v).1 name)).trans ?_
  exact ⟨Nat.le_refl _, Nat.le_refl _, Nat.le_refl _, Nat.le_refl _, Nat.le_refl _,
    Nat.le_of_eq Array.size_modify.symm⟩

theorem Scoped.bindCopy (hs : s.Scoped) (hv : s.Has v) (f : FrameId) (name : Text) :
    (s.bindCopy f name v).Scoped := by
  have hnamed := (hs.copy v).nameValue (s.copy v).1 name
  exact hnamed.scopes (.define _ hnamed f name ((copy_spec hv).1.mono (nameValue_le _ _ name)))

theorem content_bindCopy (hs : ∀ w ∈ s.lists, w.row < s.rows.size) (hv : s.Has v) (hu : s.Has u) :
    (s.bindCopy f name v).content u = s.content u := by
  unfold Store.bindCopy
  rw [content_define]
  obtain ⟨-, -, hnew, hself⟩ := copy_spec hv
  cases hkind : v.isHandle with
  | true =>
    have hne : u ≠ (s.copy v).1 := by
      rintro rfl
      exact hnew hkind hu
    rw [content_nameValue_ne hne]
    exact (Intact.copy hs v).content u hu
  | false =>
    rw [hself hkind]
    cases v with
    | closure c => cases hkind
    | _ => rfl

/-- What a name is bound to holds what was copied. -/
theorem content_bindCopy_self (s : Store) (f : FrameId) (name : Text) (v : Value) :
    (s.bindCopy f name v).content (s.copy v).1 = (s.content v).named name := by
  unfold Store.bindCopy
  rw [content_define, content_nameValue, content_copy]

theorem frame?_bindCopy_ne (hs : ∀ w ∈ s.lists, w.row < s.rows.size) (hne : g ≠ f) {fr : Frame}
    (hfr : s.frame? g = some fr) :
    (s.bindCopy f name v).frame? g = some fr := by
  show (Array.modify _ f _)[g]? = _
  rw [getElem?_modify_ne hne.symm]
  show (nameValue _ _ name).frame? g = _
  rw [frame?_nameValue]
  exact (Intact.copy hs v).frames g fr hfr

theorem frame?_bindCopy (name : Text) (v : Value) (hs : ∀ w ∈ s.lists, w.row < s.rows.size) {fr : Frame}
    (hfr : s.frame? f = some fr) :
    (s.bindCopy f name v).frame? f = some { fr with vars := fr.vars.insert name (s.copy v).1 } := by
  have hsame : ((s.copy v).2.nameValue (s.copy v).1 name).frame? f = some fr := by
    rw [frame?_nameValue]
    exact (Intact.copy hs v).frames f fr hfr
  show (Array.modify _ f _)[f]? = _
  rw [Array.getElem?_modify, if_pos rfl]
  exact congrArg (Option.map _) hsame

/-!
# Values and their copies
-/

/-- The second value is a copy of the first one: the same value if that is no object, else a new object
that holds in the second store what the first one held in the first store. -/
structure Copied (s s' : Store) (v e : Value) : Prop where
  same : v.isHandle = false → e = v
  fresh : v.isHandle = true → ¬ s.Has e ∧ s'.content e = s.content v

theorem isHandle_of_content {s' : Store} {e : Value} (h : s'.content e = s.content v) (hv : v.isHandle = true) :
    e.isHandle = true := by
  cases v <;> cases hv <;> cases e <;> first | rfl | cases h

/-- An object that is still as it was is still a copy. -/
theorem Copied.content {s₀ s' : Store} {e : Value} (h : s₀.Copied s v e)
    (hcontent : e.isHandle = true → s'.content e = s.content e) : s₀.Copied s' v e := by
  refine ⟨h.same, fun hv => ?_⟩
  obtain ⟨hnew, hsame⟩ := h.fresh hv
  exact ⟨hnew, (hcontent (isHandle_of_content hsame hv)).trans hsame⟩

end
end Store
end ScriptEngine
