import ScriptEngine.Native.Action
import ScriptEngine.Proofs.Store.Bindings

/-!
# Stores whose frames look different

Values refer to frames only through closures, and work on values does not look at frames at all. Work on
bindings looks at the names of a frame, at its links and at whether it is a boundary. A guise of frames
keeps all that: whatever else frames tell about the calls in progress may look different.
-/

namespace ScriptEngine

/-- A guise shows a frame with its bindings and links. -/
structure Frame.Guise (g : Frame → Frame) : Prop where
  vars : ∀ fr, (g fr).vars = fr.vars
  outer : ∀ fr, (g fr).outer = fr.outer
  isBoundary : ∀ fr, (g fr).isBoundary = fr.isBoundary
  name : ∀ fr, (g fr).name = fr.name
  caller : ∀ fr, (g fr).caller = fr.caller
  bind : ∀ fr vars, g { fr with vars } = { g fr with vars }
  block : ∀ vars outer, g ⟨vars, outer, .block⟩ = ⟨vars, outer, .block⟩

namespace Store

/-- The store with other frames. -/
def withFrames (s : Store) (frames : Array Frame) : Store :=
  { s with frames := frames }

/-- What a value is shown as has nothing to do with frames. -/
theorem showWithin_withFrames (s : Store) (frames : Array Frame) (fuel : Nat) (path : List Container)
    (quote : Bool) (v : Value) :
    (s.withFrames frames).showWithin fuel path quote v = s.showWithin fuel path quote v := by
  induction fuel generalizing path quote v with
  | zero => rfl
  | succ fuel ih =>
    unfold showWithin
    simp only [ih]
    rfl

theorem display_withFrames (s : Store) (frames : Array Frame) (v : Value) :
    (s.withFrames frames).display v = s.display v := by
  rw [display_eq, display_eq]
  exact showWithin_withFrames s frames _ _ _ v

theorem repr_withFrames (s : Store) (frames : Array Frame) (v : Value) :
    (s.withFrames frames).repr v = s.repr v := by
  rw [repr_eq, repr_eq]
  exact showWithin_withFrames s frames _ _ _ v

/-- The store with its frames in a guise. -/
def guised (g : Frame → Frame) (s : Store) : Store :=
  s.withFrames (s.frames.map g)

section
variable {g : Frame → Frame} (s : Store)

theorem frame?_guised (f : FrameId) : (s.guised g).frame? f = (s.frame? f).map g :=
  Array.getElem?_map

theorem size_frames_guised : (s.guised g).frames.size = s.frames.size :=
  Array.size_map ..

theorem newFrame_guised (fr : Frame) :
    (s.newFrame fr).2.guised g = ((s.guised g).newFrame (g fr)).2 :=
  congrArg s.withFrames (Array.map_push ..)

variable (hg : Frame.Guise g)
include hg

theorem lookup_guised (f : Option FrameId) (name : Text) (shallow : Bool) :
    (s.guised g).lookup f name shallow = s.lookup f name shallow := by
  have hwalk : ∀ (fuel : Nat) (f : Option FrameId),
      (s.guised g).lookupFrom name shallow fuel f = s.lookupFrom name shallow fuel f := by
    intro fuel
    induction fuel with
    | zero => exact fun _ => rfl
    | succ fuel ih =>
      intro f
      cases f with
      | none => rfl
      | some f =>
        rw [lookupFrom, lookupFrom, frame?_guised]
        cases s.frame? f with
        | none => rfl
        | some fr => simp only [Option.map_some, hg.vars, hg.isBoundary, hg.outer, ih]
  exact hwalk _ f

theorem boundary_guised (f : Option FrameId) : (s.guised g).boundary f = s.boundary f := by
  have hwalk : ∀ (fuel : Nat) (f : Option FrameId),
      (s.guised g).boundaryFrom fuel f = s.boundaryFrom fuel f := by
    intro fuel
    induction fuel with
    | zero => exact fun _ => rfl
    | succ fuel ih =>
      intro f
      cases f with
      | none => rfl
      | some f =>
        rw [boundaryFrom, boundaryFrom, frame?_guised]
        cases s.frame? f with
        | none => rfl
        | some fr => simp only [Option.map_some, hg.isBoundary, hg.outer, ih]
  exact hwalk _ f

theorem define_guised (f : FrameId) (name : Text) (v : Value) :
    (s.guised g).define f name v = (s.define f name v).guised g := by
  have hframes : (s.frames.map g).modify f
      (fun fr => { fr with vars := fr.vars.insert name v }) =
      (s.frames.modify f fun fr => { fr with vars := fr.vars.insert name v }).map g := by
    refine Array.ext_getElem? fun i => ?_
    rw [Array.getElem?_modify, Array.getElem?_map, Array.getElem?_map, Array.getElem?_modify]
    split
    · rw [Option.map_map, Option.map_map]
      congr 1
      funext fr
      show _ = g { fr with vars := fr.vars.insert name v }
      rw [hg.bind, ← hg.vars fr]
      rfl
    · rfl
  unfold define
  show s.withFrames _ = _
  exact congrArg s.withFrames hframes

theorem setNearest_guised (f : FrameId) (name : Text) (v : Value) :
    (s.guised g).setNearest f name v = (s.setNearest f name v).guised g := by
  unfold setNearest
  rw [lookup_guised s hg]
  split
  · exact define_guised s hg ..
  · exact define_guised s hg ..

theorem setOuter_guised (f : FrameId) (name : Text) (v : Value) :
    (s.guised g).setOuter f name v = (s.setOuter f name v).guised g := by
  have houter : ∀ b, ((s.guised g).frame? b).bind (·.outer) = (s.frame? b).bind (·.outer) := by
    intro b
    rw [frame?_guised]
    cases s.frame? b with
    | none => rfl
    | some fr => exact hg.outer fr
  unfold setOuter
  rw [boundary_guised s hg]
  split
  · exact define_guised s hg ..
  · rw [houter]
    split
    · exact define_guised s hg ..
    · rw [lookup_guised s hg]
      split
      · exact define_guised s hg ..
      · exact define_guised s hg ..

end

/-!
# Work on values

Everything that work on values reads is the same in any guise of the frames, and whatever it changes it
changes in the same way.
-/

section
variable {g : Frame → Frame} (s : Store)

@[simp] theorem display_guised (v : Value) : (s.guised g).display v = s.display v :=
  s.display_withFrames _ v

@[simp] theorem repr_guised (v : Value) : (s.guised g).repr v = s.repr v :=
  s.repr_withFrames _ v

@[simp] theorem dict_guised (d : DictId) : (s.guised g).dict d = s.dict d := rfl

@[simp] theorem instance?_guised (i : InstanceId) : (s.guised g).instance? i = s.instance? i := rfl

@[simp] theorem instanceType_guised (i : InstanceId) : (s.guised g).instanceType i = s.instanceType i := rfl

@[simp] theorem field?_guised (i : InstanceId) (name : Text) :
    (s.guised g).field? i name = s.field? i name := rfl

@[simp] theorem items_guised (l : ListId) : (s.guised g).items l = s.items l := rfl

@[simp] theorem window_guised (l : ListId) : (s.guised g).window l = s.window l := rfl

@[simp] theorem listSize_guised (l : ListId) : (s.guised g).listSize l = s.listSize l := rfl

@[simp] theorem listGet_guised (l : ListId) (i : Nat) : (s.guised g).listGet l i = s.listGet l i := rfl

@[simp] theorem rowGet_guised (r i : Nat) : (s.guised g).rowGet r i = s.rowGet r i := rfl

@[simp] theorem typeName_guised (v : Value) : (s.guised g).typeName v = s.typeName v := by
  cases v <;> rfl

@[simp] theorem typeOf_guised (v : Value) : (s.guised g).typeOf v = s.typeOf v := by
  cases v <;> rfl

@[simp] theorem isBuiltin_guised (v : Value) (type : Text) :
    (s.guised g).isBuiltin v type = s.isBuiltin v type := by
  cases v <;> rfl

@[simp] theorem describe_guised (v : Value) : (s.guised g).describe v = s.describe v := by
  cases v <;> rfl

@[simp] theorem newListIn_guised (items : Array Value) (n : Nat) :
    (s.guised g).newListIn items n = ((s.newListIn items n).1, (s.newListIn items n).2.guised g) := rfl

@[simp] theorem newList_guised (items : Array Value) :
    (s.guised g).newList items = ((s.newList items).1, (s.newList items).2.guised g) := rfl

@[simp] theorem newDict_guised (entries : Table Value) :
    (s.guised g).newDict entries = ((s.newDict entries).1, (s.newDict entries).2.guised g) := rfl

@[simp] theorem newInstance_guised (t : TypeInfo) :
    (s.guised g).newInstance t = ((s.newInstance t).1, (s.newInstance t).2.guised g) := rfl

@[simp] theorem modifyDict_guised (d : DictId) (f : Table Value → Table Value) :
    (s.guised g).modifyDict d f = (s.modifyDict d f).guised g := rfl

@[simp] theorem setField_guised (i : InstanceId) (name : Text) (v : Value) :
    (s.guised g).setField i name v = (s.setField i name v).guised g := rfl

@[simp] theorem listSet_guised (l : ListId) (i : Nat) (v : Value) :
    (s.guised g).listSet l i v = (s.listSet l i v).guised g := rfl

@[simp] theorem listPop_guised (l : ListId) : (s.guised g).listPop l = (s.listPop l).guised g := rfl

@[simp] theorem listRemove_guised (l : ListId) (i : Nat) :
    (s.guised g).listRemove l i = (s.listRemove l i).guised g := rfl

theorem listReserve_guised (l : ListId) : (s.guised g).listReserve l = (s.listReserve l).guised g := by
  unfold listReserve
  dsimp only
  rw [window_guised, show (s.guised g).rows = s.rows from rfl]
  split
  · rfl
  · split <;> rfl

@[simp] theorem listPush_guised (l : ListId) (v : Value) :
    (s.guised g).listPush l v = (s.listPush l v).guised g := by
  unfold listPush
  rw [listReserve_guised]
  rfl

@[simp] theorem listInsert_guised (l : ListId) (i : Nat) (v : Value) :
    (s.guised g).listInsert l i v = (s.listInsert l i v).guised g := by
  unfold listInsert
  rw [listReserve_guised]
  rfl

@[simp] theorem copy_guised (v : Value) : (s.guised g).copy v = ((s.copy v).1, (s.copy v).2.guised g) := by
  cases v with
  | closure c =>
    unfold copy
    dsimp only
    cases hc : s.closure? c with
    | none => rw [show (s.guised g).closure? c = none from hc]
    | some cl =>
      rw [show (s.guised g).closure? c = some cl from hc]
      rfl
  | inst i =>
    unfold copy
    dsimp only
    cases hi : s.instance? i with
    | none => rw [show (s.guised g).instance? i = none from hi]
    | some inst =>
      rw [show (s.guised g).instance? i = some inst from hi]
      rfl
  | _ => rfl

end

/-!
# Clones
-/

section
variable {g : Frame → Frame}

/-- The same copies in a store with its frames in a guise. -/
def Cloning.guised (g : Frame → Frame) (C : Cloning) : Cloning :=
  { C with store := C.store.guised g }

variable {clone clone' : Cloning → Value → Value × Cloning}

theorem cloneAll_guised (h : ∀ C v, clone' (Cloning.guised g C) v = ((clone C v).1, (clone C v).2.guised g))
    (vs : List Value) (C : Cloning) (acc : Array Value) :
    cloneAll clone' (C.guised g) vs acc =
      ((cloneAll clone C vs acc).1, (cloneAll clone C vs acc).2.guised g) := by
  induction vs generalizing C acc with
  | nil => rfl
  | cons v rest ih =>
    rw [cloneAll, cloneAll, h]
    exact ih ..

theorem cloneEntries_guised
    (h : ∀ C v, clone' (Cloning.guised g C) v = ((clone C v).1, (clone C v).2.guised g))
    (entries : List (Text × Value)) (C : Cloning) (acc : List (Text × Value)) :
    cloneEntries clone' (C.guised g) entries acc =
      ((cloneEntries clone C entries acc).1, (cloneEntries clone C entries acc).2.guised g) := by
  induction entries generalizing C acc with
  | nil => rfl
  | cons e rest ih =>
    rw [cloneEntries, cloneEntries, h]
    exact ih ..

theorem cloneWithin_guised (fuel : Nat) (C : Cloning) (v : Value) :
    cloneWithin fuel (C.guised g) v =
      ((cloneWithin fuel C v).1, (cloneWithin fuel C v).2.guised g) := by
  induction fuel generalizing C v with
  | zero => rfl
  | succ fuel ih =>
    have hfind : ∀ c, (C.guised g).find? c = C.find? c := fun _ => rfl
    cases v with
    | closure c =>
      show (((C.store.guised g).copy (.closure c)).1,
        ({ C with store := ((C.store.guised g).copy (.closure c)).2 } : Cloning)) = _
      rw [copy_guised]
      rfl
    | list l =>
      unfold cloneWithin
      dsimp only
      rw [hfind]
      cases C.find? (.list l) with
      | some v => rfl
      | none =>
        let made := C.store.newList (Array.replicate (C.store.items l).size .null)
        exact congrArg (fun r : Array Value × Cloning => (Value.list made.1,
            { r.2 with store := { r.2.store with
              rows := r.2.store.rows.modify (r.2.store.window made.1).row fun row =>
                { row with cells := r.1 } } }))
          (cloneAll_guised ih (C.store.items l).toList
            (Cloning.record { C with store := made.2 } (.list l) (.list made.1)) #[])
    | dict d =>
      unfold cloneWithin
      dsimp only
      rw [hfind]
      cases C.find? (.dict d) with
      | some v => rfl
      | none =>
        let made := C.store.newDict Table.empty
        exact congrArg (fun r : List (Text × Value) × Cloning => (Value.dict made.1,
            { r.2 with store := r.2.store.modifyDict made.1 fun _ => ⟨r.1⟩ }))
          (cloneEntries_guised ih (C.store.dict d).entries
            (Cloning.record { C with store := made.2 } (.dict d) (.dict made.1)) [])
    | inst i =>
      unfold cloneWithin
      dsimp only
      rw [hfind, show (C.guised g).store.instance? i = C.store.instance? i from rfl]
      cases C.find? (.inst i) with
      | some v => rfl
      | none =>
        cases C.store.instance? i with
        | none => rfl
        | some inst =>
          let id := C.store.instances.size
          exact congrArg (fun r : List (Text × Value) × Cloning => (Value.inst id,
              { r.2 with store := { r.2.store with
                instances := r.2.store.instances.modify id fun x => { x with fields := ⟨r.1⟩ } } }))
            (cloneEntries_guised ih inst.fields.entries
              (Cloning.record { C with store := { C.store with
                instances := C.store.instances.push { inst with fields := .empty } } } (.inst i)
                (.inst id)) [])
    | _ => rfl

@[simp] theorem clone_guised (s : Store) (v : Value) :
    (s.guised g).clone v = ((s.clone v).1, (s.clone v).2.guised g) := by
  exact congrArg (fun r : Value × Cloning => (r.1, r.2.store))
    (cloneWithin_guised (s.containers + 1) ⟨s, []⟩ v)

end
end Store

/-!
# What only traces show

The boundary frame of a call names the native that made the call. Only the history that a fault
carries tells of it. Everything else, names, values and links, is the same without these labels.
-/

def FrameKind.untraced : FrameKind → FrameKind
  | .block => .block
  | .boundary name site caller _ => .boundary name site caller Text.empty

namespace Frame

/-- The frame without the native that made its call. -/
def untraced (fr : Frame) : Frame :=
  { fr with kind := fr.kind.untraced }

/-- Names and links are the same without these labels. -/
theorem guise_untraced : Frame.Guise untraced where
  vars _ := rfl
  outer _ := rfl
  isBoundary fr := by
    obtain ⟨vars, outer, kind⟩ := fr
    cases kind <;> rfl
  name fr := by
    obtain ⟨vars, outer, kind⟩ := fr
    cases kind <;> rfl
  caller fr := by
    obtain ⟨vars, outer, kind⟩ := fr
    cases kind <;> rfl
  bind _ _ := rfl
  block _ _ := rfl

end Frame

/-- The store without labels of natives. -/
def Store.untraced (s : Store) : Store :=
  s.withFrames (s.frames.map Frame.untraced)

/-- The world without labels of natives. -/
def World.untraced (w : World) : World :=
  { w with store := w.store.untraced }

namespace Fault

/-- The fault without the history of calls that led to it. -/
def untraced : Fault → Fault
  | located failure message problems _ => .located failure message problems #[]
  | f => f

theorem failure_untraced (f : Fault) : f.untraced.failure = f.failure := by
  cases f <;> rfl

theorem message_untraced (f : Fault) : f.untraced.message = f.message := by
  cases f <;> rfl

theorem problems_untraced (f : Fault) : f.untraced.problems = f.problems := by
  cases f <;> rfl

/-- Faults of which at most the histories differ say the same. -/
theorem same_of_untraced {f f' : Fault} (h : f.untraced = f'.untraced) :
    f.failure = f'.failure ∧ f.message = f'.message ∧ f.problems = f'.problems := by
  refine ⟨?_, ?_, ?_⟩
  · rw [← failure_untraced, h, failure_untraced]
  · rw [← message_untraced, h, message_untraced]
  · rw [← problems_untraced, h, problems_untraced]

theorem untraced_cases {f f' : Fault} (h : f.untraced = f'.untraced) :
    f = f' ∨ ∃ failure message problems trace trace',
      f = .located failure message problems trace ∧
        f' = .located failure message problems trace' := by
  cases f with
  | located failure message problems trace =>
    cases f' with
    | located failure' message' problems' trace' =>
      cases h
      exact Or.inr ⟨_, _, _, _, _, rfl, rfl⟩
    | _ => cases h
  | _ =>
    cases f' with
    | located => cases h
    | _ => exact Or.inl h

end Fault

/-- The outcome without the history of calls that led to it. -/
def untracedOutcome : Except Fault Value → Except Fault Value
  | .ok v => .ok v
  | .error f => .error f.untraced

end ScriptEngine
