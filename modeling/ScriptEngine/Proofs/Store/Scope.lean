import ScriptEngine.Proofs.Store.Clean

/-!
# Stores whose values are in scope

A value is in scope of a store if the objects that it refers to are there. A store is scoped if every
value in it is in scope, every list has its row, and every link of a frame leads to an earlier frame.
Whatever the engine does with values in scope keeps the store so, and gives values in scope.
-/

namespace ScriptEngine

namespace Value

/-- The value is an object of the store. -/
def isHandle : Value → Bool
  | list _ | dict _ | closure _ | inst _ => true
  | _ => false

/-- Nothing in the value is an object of a store. -/
def Inert : Value → Prop
  | list _ | dict _ | closure _ | inst _ => False
  | bound _ receiver => receiver.Inert
  | _ => True

/-- The objects in the value are among so many lists, dicts, instances and closures. -/
def Within (lists dicts instances closures : Nat) : Value → Prop
  | list l => l < lists
  | dict d => d < dicts
  | inst i => i < instances
  | closure c => c < closures
  | bound _ receiver => receiver.Within lists dicts instances closures
  | _ => True

end Value

namespace Store

variable {s s' s'' : Store} {v : Value}

/-- The value is in scope of the store. -/
def Has (s : Store) (v : Value) : Prop :=
  v.Within s.lists.size s.dicts.size s.instances.size s.closures.size

/-- The frame, if there is one, is in the store. -/
def HasFrame (s : Store) (f : Option FrameId) : Prop :=
  ∀ g, f = some g → g < s.frames.size

/-- The second store has room for what is in scope of the first. -/
structure Le (s s' : Store) : Prop where
  rows : s.rows.size ≤ s'.rows.size
  lists : s.lists.size ≤ s'.lists.size
  dicts : s.dicts.size ≤ s'.dicts.size
  instances : s.instances.size ≤ s'.instances.size
  closures : s.closures.size ≤ s'.closures.size
  frames : s.frames.size ≤ s'.frames.size

theorem Le.refl (s : Store) : s.Le s :=
  ⟨Nat.le_refl _, Nat.le_refl _, Nat.le_refl _, Nat.le_refl _, Nat.le_refl _, Nat.le_refl _⟩

theorem Le.trans (h : s.Le s') (h' : s'.Le s'') : s.Le s'' :=
  ⟨Nat.le_trans h.rows h'.rows, Nat.le_trans h.lists h'.lists, Nat.le_trans h.dicts h'.dicts,
    Nat.le_trans h.instances h'.instances, Nat.le_trans h.closures h'.closures,
    Nat.le_trans h.frames h'.frames⟩

theorem Has.mono (h : s.Has v) (hle : s.Le s') : s'.Has v := by
  unfold Has at h ⊢
  induction v with
  | list l => exact Nat.lt_of_lt_of_le h hle.lists
  | dict d => exact Nat.lt_of_lt_of_le h hle.dicts
  | inst i => exact Nat.lt_of_lt_of_le h hle.instances
  | closure c => exact Nat.lt_of_lt_of_le h hle.closures
  | bound n receiver ih => exact ih h
  | _ => trivial

theorem HasFrame.mono {f : Option FrameId} (h : s.HasFrame f) (hle : s.Le s') : s'.HasFrame f :=
  fun g hg => Nat.lt_of_lt_of_le (h g hg) hle.frames

theorem hasFrame_none (s : Store) : s.HasFrame none :=
  fun _ h => by cases h

theorem hasFrame_some {f : FrameId} (hf : f < s.frames.size) : s.HasFrame (some f) := by
  rintro g ⟨⟩
  exact hf

theorem Has.inert (h : v.Inert) : s.Has v := by
  unfold Has
  induction v with
  | list | dict | inst | closure => exact h.elim
  | bound n receiver ih => exact ih h
  | _ => trivial

/-- Every value in the store is in scope. -/
structure Scoped (s : Store) : Prop where
  cells : ∀ row ∈ s.rows, ∀ v ∈ row.cells, s.Has v
  windows : ∀ w ∈ s.lists, w.row < s.rows.size
  dicts : ∀ t ∈ s.dicts, t.Every s.Has
  instances : ∀ i ∈ s.instances, i.fields.Every s.Has
  receivers : ∀ c ∈ s.closures, ∀ r, c.receiver = some r → s.Has r
  captured : ∀ c ∈ s.closures, s.HasFrame c.frame
  frames : ∀ f ∈ s.frames, f.vars.Every s.Has
  outer : ∀ f fr, s.frame? f = some fr → ∀ g, fr.outer = some g → g < f
  callers : ∀ f fr, s.frame? f = some fr → ∀ g, fr.caller = some g → g < f

theorem scoped_empty : empty.Scoped where
  cells _ h := absurd h (Array.not_mem_empty _)
  windows _ h := absurd h (Array.not_mem_empty _)
  dicts _ h := absurd h (Array.not_mem_empty _)
  instances _ h := absurd h (Array.not_mem_empty _)
  receivers _ h := absurd h (Array.not_mem_empty _)
  captured _ h := absurd h (Array.not_mem_empty _)
  frames _ h := absurd h (Array.not_mem_empty _)
  outer _ _ h := by cases h
  callers _ _ h := by cases h

/-!
# Reading
-/

theorem Scoped.dict (h : s.Scoped) (d : DictId) : (s.dict d).Every s.Has := by
  unfold Store.dict
  cases hd : s.dicts[d]? with
  | none => exact Table.Every.empty
  | some t => exact h.dicts t (Array.mem_of_getElem? hd)

theorem Scoped.field (h : s.Scoped) {i : InstanceId} {k : Text} (hv : s.field? i k = some v) :
    s.Has v := by
  unfold field? at hv
  split at hv
  · rename_i inst hinst
    exact (h.instances inst (Array.mem_of_getElem? hinst)).get? hv
  · cases hv

theorem Scoped.rowCells (h : s.Scoped) (r : Nat) : ∀ v ∈ s.rowCells r, s.Has v := by
  intro v hv
  unfold Store.rowCells at hv
  split at hv
  · rename_i row hrow
    exact h.cells row (Array.mem_of_getElem? hrow) v hv
  · exact absurd hv (Array.not_mem_empty v)

theorem Scoped.rowGet (h : s.Scoped) (r i : Nat) : s.Has (s.rowGet r i) := by
  unfold Store.rowGet
  cases hv : (s.rowCells r)[i]? with
  | none => trivial
  | some v => exact h.rowCells r v (Array.mem_of_getElem? hv)

theorem Scoped.listGet (h : s.Scoped) (l : ListId) (i : Nat) : s.Has (s.listGet l i) :=
  h.rowGet _ i

theorem Scoped.items (h : s.Scoped) (l : ListId) : ∀ v ∈ s.items l, s.Has v := by
  intro v hv
  unfold Store.items at hv
  dsimp only at hv
  split at hv
  · exact h.rowCells _ v hv
  · obtain ⟨i, hi⟩ := Array.mem_iff_getElem?.mp hv
    rw [Array.getElem?_extract] at hi
    split at hi
    · exact h.rowCells _ v (Array.mem_of_getElem? hi)
    · cases hi

theorem Scoped.lookup (h : s.Scoped) {name : Text} {shallow : Bool} {f : Option FrameId}
    {owner : FrameId} (hv : s.lookup f name shallow = some (v, owner)) : s.Has v := by
  have hwalk : ∀ fuel f, s.lookupFrom name shallow fuel f = some (v, owner) → s.Has v := by
    intro fuel
    induction fuel with
    | zero =>
      intro f hf
      cases f <;> cases hf
    | succ fuel ih =>
      intro f hf
      cases f with
      | none => cases hf
      | some f =>
        rw [lookupFrom] at hf
        split at hf
        · cases hf
        rename_i fr hfr
        split at hf
        · rename_i v' hv'
          cases hf
          exact (h.frames fr (Array.mem_of_getElem? hfr)).get? hv'
        · split at hf
          · cases hf
          · exact ih _ hf
  exact hwalk _ f hv

theorem Scoped.closure (h : s.Scoped) {c : ClosureId} {cl : Closure} (hc : s.closure? c = some cl) :
    (∀ r, cl.receiver = some r → s.Has r) ∧ s.HasFrame cl.frame :=
  ⟨h.receivers cl (Array.mem_of_getElem? hc), h.captured cl (Array.mem_of_getElem? hc)⟩

/-- A scope around a frame is in the store. -/
theorem Scoped.hasFrame_outer (h : s.Scoped) {f : FrameId} {fr : Frame} (hf : s.frame? f = some fr) :
    s.HasFrame fr.outer := by
  intro g hg
  exact Nat.lt_trans (h.outer f fr hf g hg) (Array.getElem?_eq_some_iff.mp hf).1

/-- The frame that a call returns to is in the store. -/
theorem Scoped.hasFrame_caller (h : s.Scoped) {f : FrameId} {fr : Frame}
    (hf : s.frame? f = some fr) : s.HasFrame fr.caller := by
  intro g hg
  exact Nat.lt_trans (h.callers f fr hf g hg) (Array.getElem?_eq_some_iff.mp hf).1

/-!
# Changing

A change is described by what it leaves: every part of the new store that was not in the old one is
in scope of the new one.
-/

/-- The second store has what the first one had, and what is new in it is in scope. -/
structure Scopes (s s' : Store) : Prop where
  le : s.Le s'
  cells : ∀ row ∈ s'.rows, row ∈ s.rows ∨ ∀ v ∈ row.cells, s'.Has v
  windows : ∀ w ∈ s'.lists, w ∈ s.lists ∨ w.row < s'.rows.size
  dicts : ∀ t ∈ s'.dicts, t ∈ s.dicts ∨ t.Every s'.Has
  instances : ∀ i ∈ s'.instances, i ∈ s.instances ∨ i.fields.Every s'.Has
  closures : ∀ c ∈ s'.closures, c ∈ s.closures ∨
    (∀ r, c.receiver = some r → s'.Has r) ∧ s'.HasFrame c.frame
  frames : ∀ f fr, s'.frame? f = some fr → s.frame? f = some fr ∨
    fr.vars.Every s'.Has ∧ (∀ g, fr.outer = some g → g < f) ∧ ∀ g, fr.caller = some g → g < f

theorem Scoped.scopes (h : s.Scoped) (hs : s.Scopes s') : s'.Scoped where
  cells row hrow := by
    rcases hs.cells row hrow with hrow | hrow
    · exact fun v hv => (h.cells row hrow v hv).mono hs.le
    · exact hrow
  windows w hw := by
    rcases hs.windows w hw with hw | hw
    · exact Nat.lt_of_lt_of_le (h.windows w hw) hs.le.rows
    · exact hw
  dicts t ht := by
    rcases hs.dicts t ht with ht | ht
    · exact (h.dicts t ht).imp fun v hv => hv.mono hs.le
    · exact ht
  instances i hi := by
    rcases hs.instances i hi with hi | hi
    · exact (h.instances i hi).imp fun v hv => hv.mono hs.le
    · exact hi
  receivers c hc := by
    rcases hs.closures c hc with hc | hc
    · exact fun r hr => (h.receivers c hc r hr).mono hs.le
    · exact hc.1
  captured c hc := by
    rcases hs.closures c hc with hc | hc
    · exact (h.captured c hc).mono hs.le
    · exact hc.2
  frames fr hfr := by
    obtain ⟨f, hf⟩ := Array.mem_iff_getElem?.mp hfr
    rcases hs.frames f fr hf with hf | hf
    · exact (h.frames fr (Array.mem_of_getElem? hf)).imp fun v hv => hv.mono hs.le
    · exact hf.1
  outer f fr hf := by
    rcases hs.frames f fr hf with hf | hf
    · exact h.outer f fr hf
    · exact hf.2.1
  callers f fr hf := by
    rcases hs.frames f fr hf with hf | hf
    · exact h.callers f fr hf
    · exact hf.2.2

theorem size_le_push {α : Type} (a : Array α) (x : α) : a.size ≤ (a.push x).size :=
  Array.size_push x ▸ Nat.le_succ _

theorem size_lt_push {α : Type} (a : Array α) (x : α) : a.size < (a.push x).size :=
  Array.size_push x ▸ Nat.lt_succ_self _

namespace Scopes

theorem newListIn (s : Store) {items : Array Value} (hitems : ∀ v ∈ items, s.Has v)
    (capacity : Nat) : s.Scopes (s.newListIn items capacity).2 := by
  have hle : s.Le (s.newListIn items capacity).2 := by
    refine ⟨?_, ?_, Nat.le_refl _, Nat.le_refl _, Nat.le_refl _, Nat.le_refl _⟩
    · exact size_le_push _ _
    · exact size_le_push _ _
  refine ⟨hle, ?_, ?_, fun _ => Or.inl, fun _ => Or.inl, fun _ => Or.inl, fun _ _ => Or.inl⟩
  · intro row hrow
    rcases Array.mem_push.mp hrow with hrow | rfl
    · exact Or.inl hrow
    · exact Or.inr fun v hv => (hitems v hv).mono hle
  · intro w hw
    rcases Array.mem_push.mp hw with hw | rfl
    · exact Or.inl hw
    · exact Or.inr (size_lt_push _ _)

theorem newDict (s : Store) {entries : Table Value} (hentries : entries.Every s.Has) :
    s.Scopes (s.newDict entries).2 := by
  have hle : s.Le (s.newDict entries).2 :=
    ⟨Nat.le_refl _, Nat.le_refl _, size_le_push _ _,
      Nat.le_refl _, Nat.le_refl _, Nat.le_refl _⟩
  refine ⟨hle, fun _ => Or.inl, fun _ => Or.inl, ?_, fun _ => Or.inl, fun _ => Or.inl, fun _ _ => Or.inl⟩
  intro t ht
  rcases Array.mem_push.mp ht with ht | rfl
  · exact Or.inl ht
  · exact Or.inr (hentries.imp fun v hv => hv.mono hle)

theorem pushInstance (s : Store) {inst : Instance} (hinst : inst.fields.Every s.Has) :
    s.Scopes { s with instances := s.instances.push inst } := by
  have hle : s.Le { s with instances := s.instances.push inst } :=
    ⟨Nat.le_refl _, Nat.le_refl _, Nat.le_refl _,
      size_le_push _ _, Nat.le_refl _,
      Nat.le_refl _⟩
  refine ⟨hle, fun _ => Or.inl, fun _ => Or.inl, fun _ => Or.inl, ?_, fun _ => Or.inl, fun _ _ => Or.inl⟩
  intro i hi
  rcases Array.mem_push.mp hi with hi | rfl
  · exact Or.inl hi
  · exact Or.inr (hinst.imp fun v hv => hv.mono hle)

theorem newClosure (s : Store) {cl : Closure} (hreceiver : ∀ r, cl.receiver = some r → s.Has r)
    (hframe : s.HasFrame cl.frame) : s.Scopes (s.newClosure cl).2 := by
  have hle : s.Le (s.newClosure cl).2 :=
    ⟨Nat.le_refl _, Nat.le_refl _, Nat.le_refl _, Nat.le_refl _,
      size_le_push _ _, Nat.le_refl _⟩
  refine ⟨hle, fun _ => Or.inl, fun _ => Or.inl, fun _ => Or.inl, fun _ => Or.inl, ?_, fun _ _ => Or.inl⟩
  intro c hc
  rcases Array.mem_push.mp hc with hc | rfl
  · exact Or.inl hc
  · exact Or.inr ⟨fun r hr => (hreceiver r hr).mono hle, hframe⟩

theorem newFrame (s : Store) {fr : Frame} (hvars : fr.vars.Every s.Has) (houter : s.HasFrame fr.outer)
    (hcaller : s.HasFrame fr.caller) : s.Scopes (s.newFrame fr).2 := by
  have hle : s.Le (s.newFrame fr).2 :=
    ⟨Nat.le_refl _, Nat.le_refl _, Nat.le_refl _, Nat.le_refl _, Nat.le_refl _,
      size_le_push _ _⟩
  refine ⟨hle, fun _ => Or.inl, fun _ => Or.inl, fun _ => Or.inl, fun _ => Or.inl, fun _ => Or.inl, ?_⟩
  intro f fr' hf
  have hf : (s.frames.push fr)[f]? = some fr' := hf
  rw [Array.getElem?_push] at hf
  split at hf
  · rename_i hsize
    cases hf
    subst hsize
    exact Or.inr ⟨hvars, houter, hcaller⟩
  · exact Or.inl hf

theorem define (s : Store) (hs : s.Scoped) (f : FrameId) (name : Text) (hv : s.Has v) :
    s.Scopes (s.define f name v) := by
  have hle : s.Le (s.define f name v) :=
    ⟨Nat.le_refl _, Nat.le_refl _, Nat.le_refl _, Nat.le_refl _, Nat.le_refl _,
      Nat.le_of_eq Array.size_modify.symm⟩
  refine ⟨hle, fun _ => Or.inl, fun _ => Or.inl, fun _ => Or.inl, fun _ => Or.inl, fun _ => Or.inl, ?_⟩
  intro g fr hg
  have hg : (s.frames.modify f fun fr => { fr with vars := fr.vars.insert name v })[g]? = some fr := hg
  rw [Array.getElem?_modify] at hg
  split at hg
  · obtain ⟨fr', hfr', rfl⟩ := Option.map_eq_some_iff.mp hg
    exact Or.inr ⟨(hs.frames fr' (Array.mem_of_getElem? hfr')).insert name hv, hs.outer g fr' hfr',
      hs.callers g fr' hfr'⟩
  · exact Or.inl hg

theorem insertDict (s : Store) (hs : s.Scoped) (d : DictId) (key : Text) (hv : s.Has v) :
    s.Scopes (s.modifyDict d (·.insert key v)) := by
  have hle : s.Le (s.modifyDict d (·.insert key v)) :=
    ⟨Nat.le_refl _, Nat.le_refl _, Nat.le_of_eq Array.size_modify.symm, Nat.le_refl _, Nat.le_refl _,
      Nat.le_refl _⟩
  refine ⟨hle, fun _ => Or.inl, fun _ => Or.inl, ?_, fun _ => Or.inl, fun _ => Or.inl, fun _ _ => Or.inl⟩
  intro t ht
  have ht : t ∈ s.dicts.modify d (·.insert key v) := ht
  rcases mem_modify ht with ht | ⟨t', ht', rfl⟩
  · exact Or.inl ht
  · exact Or.inr (((hs.dicts t' ht').insert key hv).imp fun v hv => hv.mono hle)

theorem setField (s : Store) (hs : s.Scoped) (i : InstanceId) (name : Text) (hv : s.Has v) :
    s.Scopes (s.setField i name v) := by
  have hle : s.Le (s.setField i name v) :=
    ⟨Nat.le_refl _, Nat.le_refl _, Nat.le_refl _, Nat.le_of_eq Array.size_modify.symm, Nat.le_refl _,
      Nat.le_refl _⟩
  refine ⟨hle, fun _ => Or.inl, fun _ => Or.inl, fun _ => Or.inl, ?_, fun _ => Or.inl, fun _ _ => Or.inl⟩
  intro inst hinst
  have hinst : inst ∈ s.instances.modify i fun inst =>
    { inst with fields := inst.fields.insert name v } := hinst
  rcases mem_modify hinst with hinst | ⟨inst', hinst', rfl⟩
  · exact Or.inl hinst
  · exact Or.inr (((hs.instances inst' hinst').insert name hv).imp fun v hv => hv.mono hle)

theorem listSet (s : Store) (hs : s.Scoped) (l : ListId) (i : Nat) (hv : s.Has v) :
    s.Scopes (s.listSet l i v) := by
  have hle : s.Le (s.listSet l i v) :=
    ⟨Nat.le_of_eq Array.size_modify.symm, Nat.le_refl _, Nat.le_refl _, Nat.le_refl _, Nat.le_refl _,
      Nat.le_refl _⟩
  refine ⟨hle, ?_, fun _ => Or.inl, fun _ => Or.inl, fun _ => Or.inl, fun _ => Or.inl, fun _ _ => Or.inl⟩
  intro row hrow
  have hrow : row ∈ s.rows.modify (s.window l).row (Row.write · i v) := hrow
  rcases mem_modify hrow with hrow | ⟨row', hrow', rfl⟩
  · exact Or.inl hrow
  · refine Or.inr fun w hw => ?_
    unfold Row.write at hw
    split at hw
    · rcases Array.mem_or_eq_of_mem_setIfInBounds hw with hw | rfl
      · exact (hs.cells row' hrow' w hw).mono hle
      · exact hv.mono hle
    · rcases Array.mem_push.mp hw with hw | rfl
      · exact (hs.cells row' hrow' w hw).mono hle
      · exact hv.mono hle

theorem nameClosure (s : Store) (hs : s.Scoped) (c : ClosureId) (name : Text) :
    s.Scopes { s with closures := s.closures.modify c fun cl => { cl with name := name } } := by
  have hle : s.Le { s with closures := s.closures.modify c fun cl => { cl with name := name } } :=
    ⟨Nat.le_refl _, Nat.le_refl _, Nat.le_refl _, Nat.le_refl _, Nat.le_of_eq Array.size_modify.symm,
      Nat.le_refl _⟩
  refine ⟨hle, fun _ => Or.inl, fun _ => Or.inl, fun _ => Or.inl, fun _ => Or.inl, ?_, fun _ _ => Or.inl⟩
  intro cl hcl
  have hcl : cl ∈ s.closures.modify c fun cl => { cl with name := name } := hcl
  rcases mem_modify hcl with hcl | ⟨cl', hcl', rfl⟩
  · exact Or.inl hcl
  · exact Or.inr ⟨fun r hr => (hs.receivers cl' hcl' r hr).mono hle, hs.captured cl' hcl'⟩

end Scopes

/-!
# Copies

The copy of an object is new: no value of the old store refers to it.
-/

theorem Le.copy (s : Store) (v : Value) : s.Le (s.copy v).2 := by
  cases v with
  | list l =>
    exact ⟨size_le_push _ _, size_le_push _ _, Nat.le_refl _, Nat.le_refl _, Nat.le_refl _,
      Nat.le_refl _⟩
  | dict d =>
    exact ⟨Nat.le_refl _, Nat.le_refl _, size_le_push _ _, Nat.le_refl _, Nat.le_refl _, Nat.le_refl _⟩
  | closure c =>
    unfold Store.copy
    dsimp only
    split
    · exact .refl s
    · exact ⟨Nat.le_refl _, Nat.le_refl _, Nat.le_refl _, Nat.le_refl _, size_le_push _ _, Nat.le_refl _⟩
  | inst i =>
    unfold Store.copy
    dsimp only
    split
    · exact .refl s
    · exact ⟨Nat.le_refl _, Nat.le_refl _, Nat.le_refl _, size_le_push _ _, Nat.le_refl _, Nat.le_refl _⟩
  | _ => exact .refl s

/-- The copy of an object in scope: the next one of its kind. -/
theorem copy_spec (hv : s.Has v) :
    (s.copy v).2.Has (s.copy v).1 ∧ (s.copy v).1.isHandle = v.isHandle ∧
      (v.isHandle = true → ¬ s.Has (s.copy v).1) ∧ (v.isHandle = false → s.copy v = (v, s)) := by
  cases v with
  | list l =>
    exact ⟨size_lt_push _ _, rfl, fun _ => Nat.lt_irrefl _, fun h => by cases h⟩
  | dict d =>
    exact ⟨size_lt_push _ _, rfl, fun _ => Nat.lt_irrefl _, fun h => by cases h⟩
  | closure c =>
    have hc : s.closure? c = some s.closures[c] := Array.getElem?_eq_getElem hv
    unfold Store.copy
    simp only [hc]
    exact ⟨size_lt_push _ _, rfl, fun _ => Nat.lt_irrefl _, fun h => by cases h⟩
  | inst i =>
    have hi : s.instance? i = some s.instances[i] := Array.getElem?_eq_getElem hv
    unfold Store.copy
    simp only [hi]
    exact ⟨size_lt_push _ _, rfl, fun _ => Nat.lt_irrefl _, fun h => by cases h⟩
  | _ => exact ⟨hv, rfl, fun h => (by cases h), fun _ => rfl⟩

end Store
end ScriptEngine
