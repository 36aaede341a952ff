import ScriptEngine.Proofs.Machine.Moves

/-!
# Work that does not look

A view of the engine leaves something out. Work is blind to what a view leaves out if it does the
same seen through the view. Which views work on values is blind to is said once: those that show
the engine's frame and library as they are and every store in a way that reading and changing it
gets along with.
-/

namespace ScriptEngine

namespace Exec

/-- A result seen through a view. -/
def viewed {α : Type} (v : Machine → Machine) :
    EStateM.Result Stop Machine α → EStateM.Result Stop Machine α
  | .ok a m => .ok a (v m)
  | .error e m => .error e (v m)

/-- The computation does the same seen through the view. -/
def BlindAt {α : Type} (v : Machine → Machine) (x : Exec α) (m : Machine) : Prop :=
  x (v m) = viewed v (x m)

/-- The computation does the same seen through the view, wherever it is done. -/
def Blind {α : Type} (v : Machine → Machine) (x : Exec α) : Prop :=
  ∀ m, BlindAt v x m

section
variable {α β : Type} {v : Machine → Machine} {m : Machine}

theorem BlindAt.bind {x : Exec α} {k : α → Exec β} (hx : BlindAt v x m)
    (hk : ∀ a m', x m = .ok a m' → BlindAt v (k a) m') : BlindAt v (x >>= k) m := by
  unfold BlindAt at hx ⊢
  cases hrun : x m with
  | ok a m' =>
    rw [hrun] at hx
    rw [bind_of_ok hx, bind_of_ok hrun]
    exact hk a m' hrun
  | error e m' =>
    rw [hrun] at hx
    rw [bind_of_error hx, bind_of_error hrun]
    rfl

theorem Blind.bind {x : Exec α} {k : α → Exec β} (hx : Blind v x) (hk : ∀ a, Blind v (k a)) :
    Blind v (x >>= k) :=
  fun m => (hx m).bind fun a m' _ => hk a m'

/-- Work that leaves the calls in progress, in front of other work. -/
theorem Blind.before {x : Exec α} {k : α → Exec β} (hx : Blind v x) (hquiet : Quiet x)
    (hk : ∀ a m', m'.calls = m.calls → BlindAt v (k a) m') : BlindAt v (x >>= k) m := by
  refine (hx m).bind fun a m' hrun => hk a m' ?_
  have hworks := hquiet m
  unfold Works at hworks
  rw [hrun] at hworks
  exact hworks.1.calls

theorem blind_pure (a : α) : Blind v (Pure.pure a) :=
  fun _ => rfl

theorem blind_raise (f : Failure) (message : Text) : Blind v (raise f message : Exec α) :=
  fun _ => rfl

theorem blind_crash (message : Text) : Blind v (crash message : Exec α) :=
  fun _ => rfl

theorem blind_reads {f : Machine → α} (hf : ∀ m : Machine, f (v m) = f m) :
    Blind v (reads f) := by
  intro m
  show EStateM.Result.ok (f (v m)) (v m) = .ok (f m) (v m)
  rw [hf]

/-- What is read may look different through the view, if what follows makes nothing of it. -/
theorem blindAt_reads {f : Machine → α} {k : α → Exec β}
    (h : k (f (v m)) (v m) = viewed v (k (f m) m)) : BlindAt v (reads f >>= k) m :=
  h

theorem blind_modify {f : Machine → Machine} (hf : ∀ m : Machine, f (v m) = v (f m)) :
    Blind v (modify f) := by
  intro m
  show EStateM.Result.ok () (f (v m)) = .ok () (v (f m))
  rw [hf]

end
end Exec

/-- What giving a closure a receiver makes of the store. -/
def Store.attach (s : Store) (c : ClosureId) (receiver : Value) : Value × Store :=
  match s.closure? c with
  | none => (.closure c, s)
  | some closure =>
    let (id, s) := s.newClosure { closure with receiver := some receiver }
    (.closure id, s)

/-- The store with another name for a closure. -/
def Store.nameClosure (s : Store) (c : ClosureId) (name : Text) : Store :=
  { s with closures := s.closures.modify c fun closure => { closure with name := name } }

/-- Reading a store gives the same for what `d` makes of it, and changing it gets along with `d`. -/
structure Store.Disguise (d : Store → Store) : Prop where
  typeName : ∀ s v, (d s).typeName v = s.typeName v
  display : ∀ s v, (d s).display v = s.display v
  repr : ∀ s v, (d s).repr v = s.repr v
  dict : ∀ s i, (d s).dict i = s.dict i
  instance? : ∀ s i, (d s).instance? i = s.instance? i
  window : ∀ s l, (d s).window l = s.window l
  rowCells : ∀ s r, (d s).rowCells r = s.rowCells r
  lookup : ∀ s f name shallow, (d s).lookup f name shallow = s.lookup f name shallow
  copy : ∀ s v, (d s).copy v = ((s.copy v).1, d (s.copy v).2)
  newListIn : ∀ s items n, (d s).newListIn items n = ((s.newListIn items n).1, d (s.newListIn items n).2)
  newDict : ∀ s entries, (d s).newDict entries = ((s.newDict entries).1, d (s.newDict entries).2)
  attach : ∀ s c r, (d s).attach c r = ((s.attach c r).1, d (s.attach c r).2)
  nameClosure : ∀ s c name, (d s).nameClosure c name = d (s.nameClosure c name)
  modifyDict : ∀ s i f, (d s).modifyDict i f = d (s.modifyDict i f)
  listSet : ∀ s l i v, (d s).listSet l i v = d (s.listSet l i v)
  setField : ∀ s i name v, (d s).setField i name v = d (s.setField i name v)
  define : ∀ s f name v, (d s).define f name v = d (s.define f name v)
  setNearest : ∀ s f name v, (d s).setNearest f name v = d (s.setNearest f name v)
  setOuter : ∀ s f name v, (d s).setOuter f name v = d (s.setOuter f name v)

namespace Store.Disguise

variable {d : Store → Store} {s : Store}

theorem listSize (h : Disguise d) (l : ListId) : (d s).listSize l = s.listSize l :=
  congrArg Window.size (h.window s l)

theorem listGet (h : Disguise d) (l : ListId) (i : Nat) : (d s).listGet l i = s.listGet l i := by
  unfold Store.listGet rowGet
  rw [h.window, h.rowCells]

theorem field? (h : Disguise d) (i : InstanceId) (name : Text) :
    (d s).field? i name = s.field? i name := by
  unfold Store.field?
  rw [show (d s).instances[i]? = s.instances[i]? from h.instance? s i]

theorem instanceType (h : Disguise d) (i : InstanceId) :
    (d s).instanceType i = s.instanceType i := by
  unfold Store.instanceType
  rw [show (d s).instances[i]? = s.instances[i]? from h.instance? s i]

end Store.Disguise

/-- The view shows stores as `d` does, and the frame and the library as they are. -/
structure Machine.View (v : Machine → Machine) (d : Store → Store) : Prop extends
    Store.Disguise d where
  store : ∀ m : Machine, (v m).world.store = d m.world.store
  withStore : ∀ (m : Machine) s, v (m.withStore s) = (v m).withStore (d s)
  frame : ∀ m : Machine, (v m).frame = m.frame
  library : ∀ m : Machine, (v m).library = m.library

theorem Machine.View.resolve {v : Machine → Machine} {d : Store → Store} (h : Machine.View v d)
    (m : Machine) (name : Text) : (v m).resolve name = m.resolve name := by
  unfold Machine.resolve
  rw [h.store, h.frame, h.lookup, h.library]

namespace Exec

section
variable {α β : Type} {v : Machine → Machine} {d : Store → Store} (hv : Machine.View v d)
include hv

theorem blind_onStore {f : Store → α × Store} (hf : ∀ s : Store, f (d s) = ((f s).1, d (f s).2)) :
    Blind v (onStore f) := by
  intro m
  have hrun : ∀ m : Machine,
      onStore f m = .ok (f m.world.store).1 (m.withStore (f m.world.store).2) := fun _ => rfl
  unfold BlindAt
  rw [hrun, hrun, hv.store, hf]
  show _ = EStateM.Result.ok _ (v (m.withStore _))
  rw [hv.withStore]

theorem blind_change (f : Store → Store) (hf : ∀ s : Store, f (d s) = d (f s)) :
    Blind v (onStore fun s => ((), f s)) :=
  blind_onStore hv fun s => congrArg (Prod.mk ()) (hf s)

theorem blind_store (f : Store → α) (hf : ∀ s : Store, f (d s) = f s) :
    Blind v (reads fun m => f m.world.store) :=
  blind_reads fun m => by rw [hv.store, hf]

theorem blind_copy (x : Value) : Blind v (copy x) := by
  have hstore : Blind v (onStore fun s => s.copy x) := blind_onStore hv fun s => hv.copy s x
  cases x with
  | list | dict | closure | inst => exact hstore
  | _ => exact blind_pure _

theorem blind_typeName (x : Value) : Blind v (typeName x) :=
  blind_store hv (·.typeName x) fun s => hv.typeName s x

theorem blind_raise_typeName (x : Value) (f : Failure) (message : Text → Text) :
    Blind v (typeName x >>= fun t => raise f (message t) : Exec α) :=
  (blind_typeName hv x).bind fun _ => blind_raise _ _

theorem blind_condition (x : Value) : Blind v (condition x) := by
  cases x with
  | boolean b => exact blind_pure b
  | _ => exact blind_raise_typeName hv _ _ _

theorem blind_guardOf (name : Text) (x : Value) : Blind v (guardOf name x) := by
  cases x with
  | null | type _ => exact blind_pure _
  | _ => exact blind_raise_typeName hv _ _ _

/-!
# Members and bindings
-/

theorem blind_bind (method receiver : Value) : Blind v (Exec.bind method receiver) := by
  cases method with
  | closure c =>
    show Blind v (onStore fun s => s.attach c receiver)
    exact blind_onStore hv fun s => hv.attach s c receiver
  | _ => exact blind_pure _

theorem blind_ownMember (object key : Value) : Blind v (ownMember object key) := by
  unfold ownMember
  split
  · exact blind_store hv (fun s => (s.dict _).get? _) fun s => by rw [hv.dict]
  · exact blind_store hv (·.field? _ _) fun s => hv.field? _ _
  · refine (blind_store hv (·.listSize _) fun s => hv.listSize _).bind fun size => ?_
    split
    · exact (blind_store hv (·.listGet _ _) fun s => hv.listGet _ _).bind fun _ => blind_pure _
    · exact blind_raise _ _
  · exact blind_pure _

theorem blind_method (object key : Value) : Blind v (method object key) := by
  cases key with
  | text k =>
    refine (blind_reads fun m => ?_).bind fun found => ?_
    · rw [hv.resolve, hv.store, hv.typeName]
    · cases found with
      | some x => exact (blind_bind hv x object).bind fun _ => blind_pure _
      | none => exact blind_pure _
  | _ => exact blind_pure _

theorem blind_repr (x : Value) : Blind v (reads fun m => m.world.store.repr x) :=
  blind_store hv (·.repr x) fun s => hv.repr s x

theorem blind_member (object key : Value) : Blind v (member object key) := by
  refine (blind_ownMember hv object key).bind fun own => ?_
  cases own with
  | some x => exact blind_pure _
  | none =>
    refine (blind_method hv object key).bind fun found => ?_
    cases found with
    | some x => exact blind_pure _
    | none => exact (blind_repr hv key).bind fun _ => blind_raise_typeName hv _ _ _

theorem blind_setMember (target key value : Value) : Blind v (setMember target key value) := by
  cases target with
  | dict i =>
    cases key with
    | text k => exact blind_change hv (·.modifyDict i _) fun s => hv.modifyDict s i _
    | _ => exact blind_raise_typeName hv _ _ _
  | list l =>
    refine (blind_store hv (·.listSize l) fun s => hv.listSize l).bind fun size => ?_
    split
    · exact blind_change hv (·.listSet l _ _) fun s => hv.listSet s l _ _
    · exact (blind_repr hv key).bind fun _ => blind_raise _ _
  | inst i =>
    refine (blind_typeName hv _).bind fun t => ?_
    cases key with
    | text k =>
      refine (blind_store hv (·.field? i k) fun s => hv.field? i k).bind fun found => ?_
      cases found with
      | some x => exact blind_change hv (·.setField i k _) fun s => hv.setField s i k _
      | none => exact blind_raise _ _
    | _ => exact (blind_repr hv _).bind fun _ => blind_raise _ _
  | _ => exact blind_raise_typeName hv _ _ _

theorem blind_nameClosure (x : Value) (name : Text) : Blind v (nameClosure x name) := by
  cases x with
  | closure c => exact blind_change hv (·.nameClosure c name) fun s => hv.nameClosure s c name
  | _ => exact blind_pure _

theorem blind_bindName (scope : Scope) (name : Text) (x : Value) :
    Blind v (bindName scope name x) := by
  refine (blind_reads hv.frame).bind fun frame => ?_
  cases frame with
  | none => exact blind_crash _
  | some f =>
    refine blind_onStore hv fun s => ?_
    cases scope with
    | inner => exact congrArg _ (hv.define s f name x)
    | nearest => exact congrArg _ (hv.setNearest s f name x)
    | outer => exact congrArg _ (hv.setOuter s f name x)

theorem blind_bump (name : Text) (up : Bool) : Blind v (bump name up) := by
  refine (blind_reads fun m => ?_).bind fun found => ?_
  · rw [hv.store, hv.frame, hv.lookup]
  cases found with
  | none => exact blind_raise _ _
  | some found =>
    obtain ⟨x, owner⟩ := found
    cases x with
    | number x => exact blind_change hv (·.define owner name _) fun s => hv.define s owner name _
    | _ => exact blind_raise_typeName hv _ _ _

/-!
# Calls
-/

theorem blind_operator (op : Text) (first : Value) : Blind v (operator op first) := by
  refine blind_reads fun m => ?_
  dsimp only
  rw [hv.resolve, hv.store, hv.typeName, hv.library]

theorem blind_checkGuards (name : Text) (params : List Parameter) (args : List Value) :
    Blind v (checkGuards name params args) := by
  induction params generalizing args with
  | nil => exact blind_pure _
  | cons p params ih =>
    cases args with
    | nil => exact blind_pure _
    | cons x args =>
      unfold checkGuards
      split
      · refine (blind_typeName hv x).bind fun t => ?_
        split
        · exact ih args
        · exact blind_raise _ _
      · exact ih args

theorem blind_checkCall (hoptions : ∀ m : Machine, (v m).options = m.options)
    (hdepth : ∀ m : Machine, (v m).calls.size = m.calls.size) (c : Closure) (args : List Value) :
    Blind v (checkCall c args) := by
  unfold checkCall
  dsimp only
  split
  · exact blind_raise _ _
  refine (blind_checkGuards hv _ _ _).bind fun _ =>
    (blind_reads fun m => by rw [hoptions]).bind fun limit => (blind_reads hdepth).bind fun depth => ?_
  split
  · exact blind_raise _ _
  · exact blind_pure _

/-!
# What instructions do with their operands
-/

theorem blind_newListIn (items : Array Value) (n : Nat) :
    Blind v (onStore fun s =>
      let (id, s) := s.newListIn items n
      (Value.list id, s)) :=
  blind_onStore hv fun s => by simp only [hv.newListIn]

/-!
# Effects
-/

omit hv in
theorem blind_effect_bind {e : Effect α} {k : α → Effect β} (he : Blind v (effect e))
    (hk : ∀ a, Blind v (effect (k a))) : Blind v (effect (e >>= k)) := by
  rw [effect_bind]
  exact he.bind hk

theorem blind_convert (x : Value) (target : Text) : Blind v (effect (Native.convert x target)) := by
  have hrefuse : Blind v (effect (Native.cannotConvert x target)) :=
    blind_effect_bind (blind_typeName hv x) fun _ => blind_raise _ _
  refine blind_effect_bind (blind_typeName hv x) fun own => ?_
  split
  · rw [Native.copyValue, effect_changeGet]
    exact blind_onStore hv fun s => hv.copy s x
  split
  · exact blind_effect_bind (blind_store hv (·.display x) fun s => hv.display s x) fun _ => blind_pure _
  split
  · cases x with
    | text t =>
      unfold Native.parseNumber
      dsimp only
      split
      · exact blind_pure _
      · exact blind_raise _ _
    | boolean b => exact blind_pure _
    | _ => exact hrefuse
  split
  · cases x with
    | number _ | text _ | null => exact blind_pure _
    | _ => exact hrefuse
  split
  · cases x with
    | text t =>
      unfold Native.charList
      rw [effect_changeGet]
      exact blind_newListIn hv _ _
    | dict i =>
      refine blind_effect_bind (blind_store hv (Native.dictKeys · i) fun s => ?_) fun _ => ?_
      · unfold Native.dictKeys
        rw [hv.dict]
      · rw [Effect.newList, effect_changeGet]
        exact blind_newListIn hv _ _
    | _ => exact hrefuse
  split
  · cases x with
    | inst i =>
      unfold Native.fieldDict
      rw [effect_changeGet]
      refine blind_onStore hv fun s => ?_
      dsimp only
      simp only [hv.instanceType, hv.field?, hv.newDict]
    | _ => exact hrefuse
  split
  · refine blind_effect_bind (blind_store hv (·.typeOf x) fun s => ?_)
      fun _ => blind_pure _
    cases x with
    | inst i => exact hv.instanceType i
    | _ => exact congrArg TypeInfo.conversion (hv.typeName s _)
  · exact hrefuse

end
end Exec
end ScriptEngine
