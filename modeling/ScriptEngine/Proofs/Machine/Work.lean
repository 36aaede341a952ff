import ScriptEngine.Proofs.Machine.Effects
import ScriptEngine.Proofs.Store.Bindings

/-!
# What an instruction may touch

Whatever the program and whatever stands on the operand stack: an instruction that neither calls nor
returns nor opens or closes a scope leaves everything of the engine but the operands and the store,
and it binds names in few frames only, in none at all if it does not assign or count.
-/

namespace ScriptEngine

/-- The machine came out of the other by work on values and by binding names in frames of `own`. -/
structure Machine.Works (own : FrameId → Prop) (m m' : Machine) : Prop where
  same : m' = { m with world := m'.world, stack := m'.stack }
  store : m.world.store.Rewrites own m'.world.store

namespace Machine.Works

variable {own own' : FrameId → Prop} {m m' m'' : Machine}

theorem refl (m : Machine) : m.Works own m :=
  ⟨rfl, .refl _⟩

theorem trans (h : m.Works own m') (h' : m'.Works own m'') : m.Works own m'' where
  same := by
    rw [h'.same, h.same]
  store := h.store.trans h'.store

theorem mono (h : m.Works own m') (hown : ∀ f, own f → own' f) : m.Works own' m' :=
  ⟨h.same, h.store.mono hown⟩

theorem withStack (m : Machine) (st : OperandStack) : m.Works own (m.withStack st) :=
  ⟨rfl, .refl _⟩

theorem withStore {s : Store} (h : m.world.store.Rewrites own s) : m.Works own (m.withStore s) :=
  ⟨rfl, h⟩

theorem frame (h : m.Works own m') : m'.frame = m.frame := by rw [h.same]

theorem calls (h : m.Works own m') : m'.calls = m.calls := by rw [h.same]

theorem captured (h : m.Works own m') : m'.captured = m.captured := by rw [h.same]

theorem natives (h : m.Works own m') : m'.natives = m.natives := by rw [h.same]

theorem ip (h : m.Works own m') : m'.ip = m.ip := by rw [h.same]

theorem program (h : m.Works own m') : m'.program = m.program := by rw [h.same]

theorem ops (h : m.Works own m') : m'.ops = m.ops := by rw [h.same]

theorem library (h : m.Works own m') : m'.library = m.library := by rw [h.same]

theorem root (h : m.Works own m') : m'.root = m.root := by rw [h.same]

theorem options (h : m.Works own m') : m'.options = m.options := by rw [h.same]

end Machine.Works

namespace Exec

variable {α β : Type} {own own' : FrameId → Prop} {m : Machine}

/-- The computation works on values and binds names in frames of `own`; a result has property `P`. -/
def Works (own : FrameId → Prop) (x : Exec α) (m : Machine) (P : α → Prop) : Prop :=
  match x m with
  | .ok a m' => m.Works own m' ∧ P a
  | .error _ m' => m.Works own m'

/-- The computation works on values and binds nothing, wherever it is done. -/
def Quiet (x : Exec α) : Prop :=
  ∀ m, Works (fun _ => False) x m fun _ => True

theorem Works.bind {x : Exec α} {k : α → Exec β} {P : α → Prop} {Q : β → Prop}
    (hx : Works own x m P) (hk : ∀ a m', m.Works own m' → P a → Works own (k a) m' Q) :
    Works own (x >>= k) m Q := by
  unfold Works at hx ⊢
  cases hrun : x m with
  | ok a m' =>
    rw [hrun] at hx
    have hnext := hk a m' hx.1 hx.2
    unfold Works at hnext
    rw [bind_of_ok hrun]
    cases hrun' : k a m' with
    | ok b m'' =>
      rw [hrun'] at hnext
      exact ⟨hx.1.trans hnext.1, hnext.2⟩
    | error e m'' =>
      rw [hrun'] at hnext
      exact hx.1.trans hnext
  | error e m' =>
    rw [hrun] at hx
    rw [bind_of_error hrun]
    exact hx

theorem Works.pure {a : α} {P : α → Prop} (h : P a) : Works own (Pure.pure a) m P :=
  ⟨.refl m, h⟩

theorem Works.raise {f : Failure} {message : Text} {P : α → Prop} :
    Works own (Exec.raise f message) m P :=
  Machine.Works.refl m

theorem Works.crash {message : Text} {P : α → Prop} : Works own (Exec.crash message) m P :=
  Machine.Works.refl m

/-- What is read off the machine is known. -/
theorem Works.reads {f : Machine → α} {k : α → Exec β} {Q : β → Prop} (h : Works own (k (f m)) m Q) :
    Works own (Exec.reads f >>= k) m Q := by
  unfold Works at h ⊢
  rw [bind_of_ok (show Exec.reads f m = .ok (f m) m from rfl)]
  exact h

theorem Quiet.works {x : Exec α} (h : Quiet x) (m : Machine) : Works own x m fun _ => True := by
  have hm := h m
  unfold Works at hm ⊢
  cases hrun : x m with
  | ok a m' =>
    rw [hrun] at hm
    exact ⟨hm.1.mono fun _ hf => hf.elim, trivial⟩
  | error e m' =>
    rw [hrun] at hm
    exact hm.mono fun _ hf => hf.elim

/-- Work that binds nothing, in front of other work. -/
theorem Quiet.before {x : Exec α} {k : α → Exec β} {Q : β → Prop} (hx : Quiet x)
    (hk : ∀ a m', m.Works own m' → Works own (k a) m' Q) : Works own (x >>= k) m Q :=
  (hx.works m).bind fun a m' hm _ => hk a m' hm

theorem Quiet.bind {x : Exec α} {k : α → Exec β} (hx : Quiet x) (hk : ∀ a, Quiet (k a)) :
    Quiet (x >>= k) :=
  fun _ => hx.before fun a m' _ => hk a m'

/-!
# Work that binds nothing
-/

theorem quiet_pure (a : α) : Quiet (Pure.pure a) :=
  fun m => ⟨.refl m, trivial⟩

theorem quiet_reads (f : Machine → α) : Quiet (reads f) :=
  fun m => ⟨.refl m, trivial⟩

theorem quiet_raise (f : Failure) (message : Text) : Quiet (raise f message : Exec α) :=
  fun _ => .raise

theorem quiet_crash (message : Text) : Quiet (crash message : Exec α) :=
  fun _ => .crash

theorem quiet_onStore {f : Store → α × Store} (hgrows : ∀ s : Store, s.Grows (f s).2)
    (hframes : ∀ s : Store, (f s).2.frames = s.frames) : Quiet (onStore f) :=
  fun m => ⟨.withStore (.of_frames (hgrows m.world.store) (hframes m.world.store)), trivial⟩

theorem quiet_push (v : Value) : Quiet (push v) :=
  fun m => ⟨.withStack m _, trivial⟩

theorem quiet_top : Quiet top := by
  intro m
  unfold Works top
  split
  · rename_i hrun
    split at hrun
    · cases hrun
      exact ⟨.refl m, trivial⟩
    · cases hrun
  · rename_i hrun
    split at hrun
    · cases hrun
    · cases hrun
      exact .refl m

theorem quiet_pop : Quiet pop := by
  intro m
  unfold Works pop
  split
  · rename_i hrun
    split at hrun
    · cases hrun
      exact ⟨.withStack m _, trivial⟩
    · cases hrun
  · rename_i hrun
    split at hrun
    · cases hrun
    · cases hrun
      exact .refl m

theorem copy_frames (s : Store) (v : Value) : (s.copy v).2.frames = s.frames := by
  unfold Store.copy
  split
  · rfl
  · rfl
  · split <;> rfl
  · split <;> rfl
  · rfl

theorem quiet_copy (v : Value) : Quiet (copy v) := by
  intro m
  unfold Works
  rw [copy_eq]
  exact ⟨.withStore (.of_frames (.copy _ v) (copy_frames _ v)), trivial⟩

theorem quiet_typeName (v : Value) : Quiet (typeName v) :=
  quiet_reads _

theorem quiet_raise_typeName (v : Value) (f : Failure) (message : Text → Text) :
    Quiet (typeName v >>= fun t => raise f (message t) : Exec α) :=
  (quiet_typeName v).bind fun _ => quiet_raise _ _

theorem quiet_popCount : Quiet popCount := by
  refine quiet_pop.bind fun v => ?_
  cases v with
  | number x =>
    dsimp only
    split
    · exact quiet_crash _
    · exact quiet_pure _
  | _ => exact quiet_crash _

theorem quiet_checkCount (n : Int) : Quiet (checkCount n) := by
  unfold checkCount
  split
  · exact quiet_crash _
  · exact quiet_pure _

theorem quiet_popCopies (n : Nat) (acc : List Value) : Quiet (popCopies n acc) := by
  induction n generalizing acc with
  | zero => exact quiet_pure _
  | succ n ih => exact quiet_pop.bind fun v => (quiet_copy v).bind fun v => ih _

theorem quiet_popArgs : Quiet popArgs :=
  quiet_popCount.bind fun n => (quiet_checkCount n).bind fun n => quiet_popCopies n []

theorem quiet_condition (v : Value) : Quiet (condition v) := by
  cases v with
  | boolean b => exact quiet_pure b
  | _ => exact quiet_raise_typeName _ _ _

theorem quiet_popItems (n : Nat) (acc : Array Value) : Quiet (popItems n acc) := by
  induction n generalizing acc with
  | zero => exact quiet_pure _
  | succ n ih => exact quiet_pop.bind fun v => (quiet_copy v).bind fun v => ih _

theorem quiet_popEntries (n : Nat) (acc : Table Value) : Quiet (popEntries n acc) := by
  induction n generalizing acc with
  | zero => exact quiet_pure _
  | succ n ih =>
    refine quiet_pop.bind fun key => quiet_pop.bind fun v => (quiet_copy v).bind fun v => ?_
    cases key with
    | text k => exact ih _
    | _ => exact quiet_raise _ _

theorem quiet_popFields (n : Nat) (acc : List Text) : Quiet (popFields n acc) := by
  induction n generalizing acc with
  | zero => exact quiet_pure _
  | succ n ih =>
    refine quiet_pop.bind fun v => ?_
    cases v with
    | text name => exact ih _
    | _ => exact quiet_crash _

theorem quiet_guardOf (name : Text) (v : Value) : Quiet (guardOf name v) := by
  cases v with
  | null | type _ => exact quiet_pure _
  | _ => exact quiet_raise_typeName _ _ _

theorem quiet_popParams (n : Nat) (acc : List Parameter) : Quiet (popParams n acc) := by
  induction n generalizing acc with
  | zero => exact quiet_pure _
  | succ n ih =>
    refine quiet_pop.bind fun v => ?_
    cases v with
    | text name => exact quiet_pop.bind fun g => (quiet_guardOf name g).bind fun guard => ih _
    | _ => exact quiet_crash _

theorem quiet_bind (method receiver : Value) : Quiet (Exec.bind method receiver) := by
  cases method with
  | closure c =>
    unfold Exec.bind
    refine quiet_onStore (fun s => ?_) fun s => ?_
    · cases hc : s.closure? c with
      | none => exact .refl s
      | some cl => exact .newClosure hc rfl
    · cases hc : s.closure? c with
      | none => rfl
      | some cl => rfl
  | _ => exact quiet_pure _

theorem quiet_ownMember (object key : Value) : Quiet (ownMember object key) := by
  unfold ownMember
  split
  · exact quiet_reads _
  · exact quiet_reads _
  · refine (quiet_reads _).bind fun size => ?_
    split
    · exact (quiet_reads _).bind fun _ => quiet_pure _
    · exact quiet_raise _ _
  · exact quiet_pure _

theorem quiet_method (object key : Value) : Quiet (method object key) := by
  cases key with
  | text k =>
    refine (quiet_reads _).bind fun found => ?_
    cases found with
    | some v => exact (quiet_bind v object).bind fun _ => quiet_pure _
    | none => exact quiet_pure _
  | _ => exact quiet_pure _

theorem quiet_member (object key : Value) : Quiet (member object key) := by
  refine (quiet_ownMember object key).bind fun own => ?_
  cases own with
  | some v => exact quiet_pure _
  | none =>
    refine (quiet_method object key).bind fun found => ?_
    cases found with
    | some v => exact quiet_pure _
    | none => exact (quiet_reads _).bind fun _ => quiet_raise_typeName _ _ _

/-- Changes to containers leave frames and closures. -/
theorem quiet_change {f : Store → Store} (hframes : ∀ s : Store, (f s).frames = s.frames)
    (hclosures : ∀ s : Store, (f s).closures = s.closures) : Quiet (onStore fun s => ((), f s)) :=
  quiet_onStore (fun s => .of_same (hframes s) (hclosures s)) hframes

theorem quiet_setMember (target key value : Value) : Quiet (setMember target key value) := by
  cases target with
  | dict d =>
    cases key with
    | text k =>
      unfold setMember
      exact quiet_change (fun _ => rfl) fun _ => rfl
    | _ => exact quiet_raise_typeName _ _ _
  | list l =>
    refine (quiet_reads _).bind fun size => ?_
    split
    · exact quiet_change (fun _ => rfl) fun _ => rfl
    · exact (quiet_reads _).bind fun _ => quiet_raise _ _
  | inst i =>
    refine (quiet_typeName _).bind fun t => ?_
    cases key with
    | text k =>
      refine (quiet_reads _).bind fun found => ?_
      cases found with
      | some v => exact quiet_change (fun _ => rfl) fun _ => rfl
      | none => exact quiet_raise _ _
    | _ => exact (quiet_reads _).bind fun _ => quiet_raise _ _
  | _ => exact quiet_raise_typeName _ _ _

theorem quiet_nameClosure (v : Value) (name : Text) : Quiet (nameClosure v name) := by
  cases v with
  | closure c =>
    unfold nameClosure
    exact quiet_onStore (fun s => .modifyClosure s c fun _ => rfl) fun _ => rfl
  | _ => exact quiet_pure _

end Exec

/-!
# Work that binds names
-/

/-- The frames in which an operation may bind a name. -/
def Op.Owns (op : Op) (m : Machine) (g : FrameId) : Prop :=
  match op with
  | .assign .outer => True
  | .assign _ => ∃ f, m.frame = some f ∧ m.world.store.Inside f g
  | .bump name _ => ∃ v, m.world.store.lookup m.frame name false = some (v, g)
  | _ => False

namespace Exec

theorem works_bindName {scope : Scope} {m' : Machine} (hm : m.Works own m')
    (hown : ∀ g, (Op.assign scope).Owns m g → own g) (name : Text) (v : Value) :
    Works own (bindName scope name v) m' fun _ => True := by
  refine Works.reads ?_
  cases hf : m'.frame with
  | none => exact .refl m'
  | some f =>
    have hframe : m.frame = some f := hm.frame ▸ hf
    refine ⟨.withStore ?_, trivial⟩
    cases scope with
    | inner => exact .define _ (hown f ⟨f, hframe, .here⟩) name v
    | nearest =>
      dsimp only
      unfold Store.setNearest
      split
      · rename_i owner hfound
        exact .define _ (hown owner ⟨f, hframe, hm.store.inside (Store.lookup_inside hfound)⟩) name v
      · exact .define _ (hown f ⟨f, hframe, .here⟩) name v
    | outer =>
      dsimp only
      unfold Store.setOuter
      split
      · exact .define _ (hown _ trivial) name v
      split
      · exact .define _ (hown _ trivial) name v
      split
      · exact .define _ (hown _ trivial) name v
      · exact .define _ (hown _ trivial) name v

theorem works_assign (scope : Scope) (m : Machine) :
    Works ((Op.assign scope).Owns m) (assign scope) m fun _ => True := by
  refine quiet_pop.before fun name m₁ hm₁ => quiet_pop.before fun target m₂ hm₂ =>
    quiet_pop.before fun value m₃ hm₃ => (quiet_copy value).before fun value m₄ hm₄ => ?_
  have hm := ((hm₁.trans hm₂).trans hm₃).trans hm₄
  have hmember : Works ((Op.assign scope).Owns m)
      (setMember target name value >>= fun _ => push value) m₄ fun _ => True :=
    (quiet_setMember target name value).before fun _ m' _ => (quiet_push value).works m'
  cases target with
  | empty =>
    cases name with
    | text key =>
      refine (quiet_nameClosure value key).before fun _ m₅ hm₅ => ?_
      refine (works_bindName (hm.trans hm₅) (fun _ h => h) key value).bind fun _ m' _ _ => ?_
      exact (quiet_push value).works m'
    | _ => exact .crash
  | _ => exact hmember

theorem works_bump (name : Text) (up : Bool) (m : Machine) :
    Works ((Op.bump name up).Owns m) (bump name up) m fun _ => True := by
  refine Works.reads ?_
  cases hfound : m.world.store.lookup m.frame name false with
  | none => exact .refl m
  | some found =>
    obtain ⟨v, owner⟩ := found
    cases v with
    | number x => exact ⟨.withStore (.define _ ⟨_, hfound⟩ name _), trivial⟩
    | _ => exact .refl m

/-- The instruction is over and the next one is in the same function. -/
def Next.Onward : Next → Prop
  | .next | .skip _ => True
  | _ => False

end Exec

/-- The operation neither calls nor returns, opens or closes a scope, or builds a closure. -/
def Op.Local : Op → Prop
  | .call | .dispatch _ | .ret | .scopeEnter | .scopeExit | .buildFunc _ => False
  | _ => True

namespace Exec

theorem works_step {op : Op} (h : op.Local) (m : Machine) :
    Works (op.Owns m) (step op) m Next.Onward := by
  have hpush : ∀ (v : Value) (m : Machine) {own : FrameId → Prop},
      Works own (push v >>= fun _ => pure Next.next) m Next.Onward :=
    fun v m _ => (quiet_push v).before fun _ _ _ => .pure trivial
  cases op with
  | call | dispatch | ret | scopeEnter | scopeExit | buildFunc => exact absurd h id
  | push v => exact hpush v m
  | buildList =>
    refine quiet_popCount.before fun n _ _ => (quiet_checkCount n).before fun n _ _ =>
      (quiet_popItems n #[]).before fun items _ _ => ?_
    refine (quiet_onStore (fun s => ?_) fun s => ?_).before fun id m' _ => hpush _ m'
    · exact .of_same rfl rfl
    · rfl
  | buildDict =>
    refine quiet_popCount.before fun n _ _ => (quiet_popEntries _ _).before fun entries _ _ => ?_
    refine (quiet_onStore (fun s => ?_) fun s => ?_).before fun id m' _ => hpush _ m'
    · exact .of_same rfl rfl
    · rfl
  | buildType name =>
    exact quiet_popCount.before fun n _ _ => (quiet_checkCount n).before fun n _ _ =>
      (quiet_popFields n []).before fun fields m' _ => hpush _ m'
  | jump d => exact .pure trivial
  | jumpPeek expected d =>
    refine quiet_top.before fun v _ _ => (quiet_condition v).before fun b _ _ => .pure ?_
    split <;> trivial
  | jumpIfFalse d =>
    refine quiet_pop.before fun v _ _ => (quiet_condition v).before fun b _ _ => .pure ?_
    split <;> trivial
  | getVar name =>
    refine (quiet_reads _).before fun found m' _ => ?_
    cases found with
    | some v => exact hpush v m'
    | none => exact .raise
  | getMember =>
    exact quiet_pop.before fun key _ _ => quiet_pop.before fun object _ _ =>
      (quiet_member object key).before fun v m' _ => hpush v m'
  | assign scope => exact (works_assign scope m).bind fun _ _ _ _ => .pure trivial
  | bump name up => exact (works_bump name up m).bind fun _ _ _ _ => .pure trivial
  | negate =>
    refine quiet_pop.before fun v m' _ => ?_
    cases v with
    | number x => exact hpush _ m'
    | _ => exact (quiet_typeName _).before fun _ _ _ => .raise
  | not =>
    exact quiet_pop.before fun v _ _ => (quiet_condition v).before fun b m' _ => hpush _ m'
  | stray again => exact .raise
  | pop => exact quiet_pop.before fun _ _ _ => .pure trivial
  | unknown b => exact .crash

/-!
# Conversions and new instances
-/

theorem quiet_newList (items : Store → Array Value) :
    Quiet (effect (Effect.reads items >>= Effect.newList)) := by
  rw [effect_bind]
  refine Quiet.bind (quiet_reads _) fun l => ?_
  unfold Effect.newList
  rw [effect_changeGet]
  exact quiet_onStore (fun _ => .of_same rfl rfl) fun _ => rfl

theorem quiet_convert (v : Value) (target : Text) : Quiet (effect (Native.convert v target)) := by
  have hrefuse : Quiet (effect (Native.cannotConvert v target)) := by
    unfold Native.cannotConvert
    rw [effect_bind]
    exact Quiet.bind (quiet_reads _) fun _ => quiet_raise _ _
  unfold Native.convert
  rw [effect_bind]
  refine Quiet.bind (quiet_reads _) fun own => ?_
  split
  · unfold Native.copyValue
    rw [effect_changeGet]
    exact quiet_onStore (fun s => .copy s v) fun s => copy_frames s v
  split
  · rw [effect_bind]
    exact Quiet.bind (quiet_reads _) fun _ => quiet_pure _
  split
  · cases v with
    | text t =>
      unfold Native.parseNumber
      dsimp only
      split
      · exact quiet_pure _
      · exact quiet_raise _ _
    | boolean b => exact quiet_pure _
    | _ => exact hrefuse
  split
  · cases v with
    | number _ | text _ | null => exact quiet_pure _
    | _ => exact hrefuse
  split
  · cases v with
    | text t =>
      unfold Native.charList
      rw [effect_changeGet]
      exact quiet_onStore (fun _ => .of_same rfl rfl) fun _ => rfl
    | dict d => exact quiet_newList _
    | _ => exact hrefuse
  split
  · cases v with
    | inst i =>
      unfold Native.fieldDict
      rw [effect_changeGet]
      exact quiet_onStore (fun _ => .of_same rfl rfl) fun _ => rfl
    | _ => exact hrefuse
  split
  · rw [effect_bind]
    exact Quiet.bind (quiet_reads _) fun _ => quiet_pure _
  · exact hrefuse

end Exec

/-- Filling the fields of an instance leaves frames and closures. -/
theorem State.fill_same (s : Store) (i : InstanceId) (pairs : List (Text × Value)) :
    (State.startConstruction.fill s i pairs).frames = s.frames ∧
      (State.startConstruction.fill s i pairs).closures = s.closures := by
  induction pairs generalizing s with
  | nil => exact ⟨rfl, rfl⟩
  | cons p rest ih => exact ih (s.setField i p.1 p.2)

end ScriptEngine
