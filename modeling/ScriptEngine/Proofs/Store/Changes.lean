import Mathlib.Logic.Relation
import ScriptEngine.Proofs.Store.Scope

/-!
# Changes of the store

Everything that work of the engine can do to a store, one change at a time. What a name is bound to is
an object that no other name is bound to, unless it was lent: two bindings of one object are always
due to a frame that was given it from outside.
-/

namespace ScriptEngine
namespace Store

/-- The name is bound to the value in the frame. -/
def Holds (s : Store) (f : FrameId) (name : Text) (v : Value) : Prop :=
  ∃ fr, s.frame? f = some fr ∧ fr.vars.get? name = some v

/-- No name is bound to the value. -/
def Unbound (s : Store) (v : Value) : Prop :=
  ∀ f name, ¬ s.Holds f name v

/-- What a native may make of a store: values stay in scope and nothing is bound. -/
structure Tends (s s' : Store) : Prop where
  scope : s'.Scoped
  le : s.Le s'
  frames : s'.frames = s.frames

/-- One change. Natives change stores as `native` says, and `lent` says which bindings of a new frame
are to objects that others may be bound to. -/
inductive Change (native : Store → Store → Prop) (lent : FrameId → Text → Value → Prop) :
    Store → Store → Prop
  | list {s : Store} {items : Array Value} (h : ∀ v ∈ items, s.Has v) (capacity : Nat) :
    Change native lent s (s.newListIn items capacity).2
  | dict {s : Store} {entries : Table Value} (h : entries.Every s.Has) :
    Change native lent s (s.newDict entries).2
  | inst {s : Store} {inst : Instance} (h : inst.fields.Every s.Has) :
    Change native lent s { s with instances := s.instances.push inst }
  | closure {s : Store} {cl : Closure} (hreceiver : ∀ r, cl.receiver = some r → s.Has r)
    (hframe : s.HasFrame cl.frame) : Change native lent s (s.newClosure cl).2
  | name {s : Store} (c : ClosureId) (name : Text) :
    Change native lent s
      { s with closures := s.closures.modify c fun closure => { closure with name := name } }
  | set {s : Store} {v : Value} (l : ListId) (i : Nat) (h : s.Has v) :
    Change native lent s (s.listSet l i v)
  | insert {s : Store} {v : Value} (d : DictId) (key : Text) (h : s.Has v) :
    Change native lent s (s.modifyDict d (·.insert key v))
  | field {s : Store} {v : Value} (i : InstanceId) (name : Text) (h : s.Has v) :
    Change native lent s (s.setField i name v)
  | bind {s : Store} {v : Value} (f : FrameId) (name : Text) (h : s.Has v)
    (hnew : v.isHandle = true → s.Unbound v) : Change native lent s (s.define f name v)
  | frame {s : Store} {fr : Frame} (hvars : fr.vars.Every s.Has) (houter : s.HasFrame fr.outer)
    (hcaller : s.HasFrame fr.caller)
    (hown : ∀ name v, fr.vars.get? name = some v → v.isHandle = true →
      lent s.frames.size name v ∨ s.Unbound v ∧ ∀ other, fr.vars.get? other = some v → other = name) :
    Change native lent s (s.newFrame fr).2
  | native {s s' : Store} (h : native s s') : Change native lent s s'

/-- Changes one after the other. -/
def Changes (native : Store → Store → Prop) (lent : FrameId → Text → Value → Prop) :
    Store → Store → Prop :=
  Relation.ReflTransGen (Change native lent)

section
variable {native : Store → Store → Prop} {lent : FrameId → Text → Value → Prop} {s s' s'' : Store}
  {v : Value} {f : FrameId} {name : Text}

theorem Changes.refl : s.Changes native lent s :=
  Relation.ReflTransGen.refl

theorem Change.once (h : Change native lent s s') : s.Changes native lent s' :=
  Relation.ReflTransGen.single h

theorem Changes.trans (h : s.Changes native lent s') (h' : s'.Changes native lent s'') :
    s.Changes native lent s'' :=
  Relation.ReflTransGen.trans h h'

/-!
# Scopes
-/

theorem Change.le (htends : ∀ s s', native s s' → s.Tends s') (h : Change native lent s s') :
    s.Le s' := by
  cases h with
  | list => exact ⟨size_le_push _ _, size_le_push _ _, Nat.le_refl _, Nat.le_refl _, Nat.le_refl _,
      Nat.le_refl _⟩
  | dict => exact ⟨Nat.le_refl _, Nat.le_refl _, size_le_push _ _, Nat.le_refl _, Nat.le_refl _,
      Nat.le_refl _⟩
  | inst => exact ⟨Nat.le_refl _, Nat.le_refl _, Nat.le_refl _, size_le_push _ _, Nat.le_refl _,
      Nat.le_refl _⟩
  | closure => exact ⟨Nat.le_refl _, Nat.le_refl _, Nat.le_refl _, Nat.le_refl _, size_le_push _ _,
      Nat.le_refl _⟩
  | name => exact ⟨Nat.le_refl _, Nat.le_refl _, Nat.le_refl _, Nat.le_refl _,
      Nat.le_of_eq Array.size_modify.symm, Nat.le_refl _⟩
  | set => exact ⟨Nat.le_of_eq Array.size_modify.symm, Nat.le_refl _, Nat.le_refl _, Nat.le_refl _,
      Nat.le_refl _, Nat.le_refl _⟩
  | insert => exact ⟨Nat.le_refl _, Nat.le_refl _, Nat.le_of_eq Array.size_modify.symm, Nat.le_refl _,
      Nat.le_refl _, Nat.le_refl _⟩
  | field => exact ⟨Nat.le_refl _, Nat.le_refl _, Nat.le_refl _, Nat.le_of_eq Array.size_modify.symm,
      Nat.le_refl _, Nat.le_refl _⟩
  | bind => exact ⟨Nat.le_refl _, Nat.le_refl _, Nat.le_refl _, Nat.le_refl _, Nat.le_refl _,
      Nat.le_of_eq Array.size_modify.symm⟩
  | frame => exact ⟨Nat.le_refl _, Nat.le_refl _, Nat.le_refl _, Nat.le_refl _, Nat.le_refl _,
      size_le_push _ _⟩
  | native h => exact (htends _ _ h).le

theorem Change.scoped (htends : ∀ s s', native s s' → s.Tends s') (h : Change native lent s s')
    (hs : s.Scoped) : s'.Scoped := by
  cases h with
  | list h capacity => exact hs.scopes (.newListIn s h capacity)
  | dict h => exact hs.scopes (.newDict s h)
  | inst h => exact hs.scopes (.pushInstance s h)
  | closure hreceiver hframe => exact hs.scopes (.newClosure s hreceiver hframe)
  | name c name => exact hs.scopes (.nameClosure s hs c name)
  | set l i h => exact hs.scopes (.listSet s hs l i h)
  | insert d key h => exact hs.scopes (.insertDict s hs d key h)
  | field i name h => exact hs.scopes (.setField s hs i name h)
  | bind f name h => exact hs.scopes (.define s hs f name h)
  | frame hvars houter hcaller => exact hs.scopes (.newFrame s hvars houter hcaller)
  | native h => exact (htends _ _ h).scope

theorem Changes.le (htends : ∀ s s', native s s' → s.Tends s') (h : s.Changes native lent s') :
    s.Le s' := by
  induction h with
  | refl => exact .refl s
  | tail _ h ih => exact ih.trans (h.le htends)

theorem Changes.scoped (htends : ∀ s s', native s s' → s.Tends s') (h : s.Changes native lent s')
    (hs : s.Scoped) : s'.Scoped := by
  induction h with
  | refl => exact hs
  | tail _ h ih => exact h.scoped htends ih

/-!
# Bindings
-/

theorem Holds.has (h : s.Holds f name v) (hs : s.Scoped) : s.Has v := by
  obtain ⟨fr, hfr, hv⟩ := h
  exact (hs.frames fr (Array.mem_of_getElem? hfr)).get? hv

theorem holds_define {g : FrameId} {other : Text} {w : Value}
    (h : (s.define f name v).Holds g other w) :
    g = f ∧ other = name ∧ w = v ∨ s.Holds g other w := by
  obtain ⟨fr, hfr, hw⟩ := h
  have hfr : (s.frames.modify f fun fr => { fr with vars := fr.vars.insert name v })[g]? = some fr := hfr
  rw [Array.getElem?_modify] at hfr
  split at hfr
  · rename_i hg
    obtain ⟨old, hold, rfl⟩ := Option.map_eq_some_iff.mp hfr
    dsimp only at hw
    rw [Table.get?_insert] at hw
    split at hw
    · rename_i hname
      exact Or.inl ⟨hg.symm, hname.symm, (Option.some.inj hw).symm⟩
    · exact Or.inr ⟨old, hold, hw⟩
  · exact Or.inr ⟨fr, hfr, hw⟩

theorem holds_newFrame {fr : Frame} {g : FrameId} {other : Text} {w : Value}
    (h : (s.newFrame fr).2.Holds g other w) :
    g = s.frames.size ∧ fr.vars.get? other = some w ∨ s.Holds g other w := by
  obtain ⟨fr', hfr', hw⟩ := h
  have hfr' : (s.frames.push fr)[g]? = some fr' := hfr'
  rw [Array.getElem?_push] at hfr'
  split at hfr'
  · rename_i hg
    cases hfr'
    exact Or.inl ⟨hg, hw⟩
  · exact Or.inr ⟨fr', hfr', hw⟩

theorem holds_of_frames (h : s'.frames = s.frames) (hv : s'.Holds f name v) : s.Holds f name v := by
  obtain ⟨fr, hfr, hv⟩ := hv
  exact ⟨fr, (congrArg (fun frames : Array Frame => frames[f]?) h).symm.trans hfr, hv⟩

/-- Names that are bound to one object are the same name, or one of them was lent it. -/
def Apart (lent : FrameId → Text → Value → Prop) (s : Store) : Prop :=
  ∀ f name g other v, s.Holds f name v → s.Holds g other v → v.isHandle = true →
    (f, name) ≠ (g, other) → lent f name v ∨ lent g other v

theorem Apart.of_frames (h : s.Apart lent) (hframes : s'.frames = s.frames) : s'.Apart lent :=
  fun f name g other v hv hv' => h f name g other v (holds_of_frames hframes hv)
    (holds_of_frames hframes hv')

theorem Apart.define (h : s.Apart lent) (hnew : v.isHandle = true → s.Unbound v) :
    (s.define f name v).Apart lent := by
  intro g other g' other' w hw hw' hhandle hne
  rcases holds_define hw with ⟨rfl, rfl, rfl⟩ | hold
  · rcases holds_define hw' with ⟨rfl, rfl, -⟩ | hold'
    · exact absurd rfl hne
    · exact absurd hold' (hnew hhandle g' other')
  · rcases holds_define hw' with ⟨rfl, rfl, rfl⟩ | hold'
    · exact absurd hold (hnew hhandle g other)
    · exact h g other g' other' w hold hold' hhandle hne

theorem Apart.newFrame (h : s.Apart lent) {fr : Frame}
    (hown : ∀ name v, fr.vars.get? name = some v → v.isHandle = true →
      lent s.frames.size name v ∨ s.Unbound v ∧ ∀ other, fr.vars.get? other = some v → other = name) :
    (s.newFrame fr).2.Apart lent := by
  intro g other g' other' w hw hw' hhandle hne
  rcases holds_newFrame hw with ⟨rfl, hvar⟩ | hold
  · rcases hown other w hvar hhandle with hlent | ⟨hunbound, hunique⟩
    · exact Or.inl hlent
    · rcases holds_newFrame hw' with ⟨rfl, hvar'⟩ | hold'
      · exact absurd (congrArg _ (hunique other' hvar').symm) hne
      · exact absurd hold' (hunbound g' other')
  · rcases holds_newFrame hw' with ⟨rfl, hvar'⟩ | hold'
    · rcases hown other' w hvar' hhandle with hlent | ⟨hunbound, -⟩
      · exact Or.inr hlent
      · exact absurd hold (hunbound g other)
    · exact h g other g' other' w hold hold' hhandle hne

theorem Change.apart (htends : ∀ s s', native s s' → s.Tends s') (h : Change native lent s s')
    (hs : s.Apart lent) : s'.Apart lent := by
  cases h with
  | bind f name _ hnew => exact hs.define hnew
  | frame _ _ _ hown => exact hs.newFrame hown
  | native h => exact hs.of_frames (htends _ _ h).frames
  | _ => exact hs.of_frames rfl

theorem Changes.apart (htends : ∀ s s', native s s' → s.Tends s') (h : s.Changes native lent s')
    (hs : s.Apart lent) : s'.Apart lent := by
  induction h with
  | refl => exact hs
  | tail _ h ih => exact h.apart htends ih

/-!
# Rows
-/

/-- No two lists share their cells. -/
def Separate (s : Store) : Prop :=
  ∀ (l l' : ListId) (w w' : Window), s.lists[l]? = some w → s.lists[l']? = some w' → w.row = w'.row →
    l = l'

theorem Separate.newListIn (h : s.Separate) (hs : ∀ w ∈ s.lists, w.row < s.rows.size)
    (items : Array Value) (capacity : Nat) : (s.newListIn items capacity).2.Separate := by
  have hold : ∀ (l : ListId) w, s.lists[l]? = some w → w.row ≠ s.rows.size := fun l w hl =>
    Nat.ne_of_lt (hs w (Array.mem_of_getElem? hl))
  intro l l' w w' hw hw' hrow
  have hw : (s.lists.push ⟨s.rows.size, items.size⟩)[l]? = some w := hw
  have hw' : (s.lists.push ⟨s.rows.size, items.size⟩)[l']? = some w' := hw'
  rw [Array.getElem?_push] at hw hw'
  split at hw
  · rename_i hl
    cases hw
    split at hw'
    · rename_i hl'
      rw [hl, hl']
    · exact absurd hrow.symm (hold l' w' hw')
  · split at hw'
    · cases hw'
      exact absurd hrow (hold l w hw)
    · exact h l l' w w' hw hw' hrow

theorem Changes.separate (htends : ∀ s s', native s s' → s.Tends s')
    (hrows : ∀ s s', native s s' → s.Separate → s'.Separate) (h : s.Changes native lent s')
    (hs : s.Scoped) (hseparate : s.Separate) : s'.Separate := by
  induction h with
  | refl => exact hseparate
  | tail hchanges h ih =>
    cases h with
    | list h capacity => exact ih.newListIn (Changes.scoped htends hchanges hs).windows _ capacity
    | native h => exact hrows _ _ h ih
    | _ => exact ih

/-!
# Changes made by copying and binding
-/

theorem Changes.copy (hs : s.Scoped) (v : Value) : s.Changes native lent (s.copy v).2 := by
  cases v with
  | list l => exact (Change.list (hs.items l) _).once
  | dict d => exact (Change.dict (hs.dict d)).once
  | closure c =>
    unfold Store.copy
    cases hc : s.closure? c with
    | none =>
      simp only [hc]
      exact .refl
    | some cl =>
      simp only [hc]
      exact (Change.closure (hs.closure hc).1 (hs.closure hc).2).once
  | inst i =>
    unfold Store.copy
    cases hi : s.instance? i with
    | none =>
      simp only [hi]
      exact .refl
    | some inst =>
      simp only [hi]
      exact (Change.inst (hs.instances inst (Array.mem_of_getElem? hi))).once
  | _ => exact .refl

theorem Changes.setNearest (h : s.Has v) (hnew : v.isHandle = true → s.Unbound v) (f : FrameId)
    (name : Text) : s.Changes native lent (s.setNearest f name v) := by
  unfold Store.setNearest
  split
  · exact (Change.bind _ name h hnew).once
  · exact (Change.bind f name h hnew).once

theorem Changes.setOuter (h : s.Has v) (hnew : v.isHandle = true → s.Unbound v) (f : FrameId)
    (name : Text) : s.Changes native lent (s.setOuter f name v) := by
  unfold Store.setOuter
  split
  · exact (Change.bind f name h hnew).once
  · split
    · exact (Change.bind _ name h hnew).once
    · split
      · exact (Change.bind _ name h hnew).once
      · exact (Change.bind _ name h hnew).once

end
end Store
end ScriptEngine
