import ScriptEngine.Native.Embedding
import ScriptEngine.Proofs.Machine.Raising
import ScriptEngine.Proofs.Machine.Work
import ScriptEngine.Proofs.Native.Conduct

/-!
# The standard natives

A standard native touches the engine through calls only, and works on values: it binds no names, and a
closure that it makes begins where an older one does. Its own failures are raised without a place; if a
call of its own fails, it ends with the fault of that call. Whatever relation of stores allows changes of
objects other than frames and closures, and copies of values, allows what a standard native does.
-/

namespace ScriptEngine

/-!
# Relaying
-/

/-- The action, begun in a store, touches the engine through calls only, and passes on the fault of the
first call that fails. -/
inductive Action.Relays : Store → Action → Prop
  | done {s : Store} {r : Option Value} {w : World} (h : s.Rewrites (fun _ => False) w.store) :
    Relays s (.done r w)
  | fail {s : Store} {f : Fault} {w : World} (hf : f.Raised)
    (h : s.Rewrites (fun _ => False) w.store) : Relays s (.fail f w)
  | crash {s : Store} {message : Text} {w : World} : Relays s (.crash message w)
  | invoke {s : Store} {callee : Value} {args : List Value} {w : World}
    {resume : Except Fault Value → World → Action} (h : s.Rewrites (fun _ => False) w.store)
    (hok : ∀ v w', Relays w'.store (resume (.ok v) w'))
    (herror : ∀ f w', resume (.error f) w' = .fail f w') : Relays s (.invoke callee args w resume)

/-- Relaying natives conduct themselves well. -/
theorem Action.Relays.conducts {s : Store} {a : Action} (h : a.Relays s) :
    a.Conducts (Store.Rewrites fun _ => False) s := by
  induction h with
  | done h => exact .done h
  | fail _ h => exact .fail h
  | crash => exact .crash
  | invoke h _ herror ih =>
    refine .invoke h fun o w' => ?_
    cases o with
    | ok v => exact ih v w'
    | error f =>
      rw [herror]
      exact .fail (.refl _)

theorem Action.Relays.callsOnly {s : Store} {a : Action} (h : a.Relays s) : a.CallsOnly s := by
  induction h with
  | done h => exact .done h.toGrows
  | fail _ h => exact .fail h.toGrows
  | crash => exact .crash
  | invoke h _ herror ih =>
    refine .invoke h.toGrows fun o w' => ?_
    cases o with
    | ok v => exact ih v w'
    | error f =>
      rw [herror]
      exact .fail (.refl _)

/-- Every native of the library relays. -/
def Library.Relays (l : Library) : Prop :=
  ∀ info args w, (l.behaviour info args w).Relays w.store

theorem Library.Relays.callsOnly {l : Library} (h : l.Relays) : l.CallsOnly :=
  fun info args w => (h info args w).callsOnly

/-- The action relays, and changes the store as `R` allows each time that it has it. -/
inductive Action.RelaysWithin (R : Store → Store → Prop) : Store → Action → Prop
  | done {s : Store} {r : Option Value} {w : World} (h : R s w.store) : RelaysWithin R s (.done r w)
  | fail {s : Store} {f : Fault} {w : World} (hf : f.Raised) (h : R s w.store) :
    RelaysWithin R s (.fail f w)
  | crash {s : Store} {message : Text} {w : World} (h : R s w.store) :
    RelaysWithin R s (.crash message w)
  | invoke {s : Store} {callee : Value} {args : List Value} {w : World}
    {resume : Except Fault Value → World → Action} (h : R s w.store)
    (hok : ∀ v w', RelaysWithin R w'.store (resume (.ok v) w'))
    (herror : ∀ f w', resume (.error f) w' = .fail f w') :
    RelaysWithin R s (.invoke callee args w resume)

theorem Action.RelaysWithin.relays {s : Store} {a : Action}
    (h : a.RelaysWithin (Store.Rewrites fun _ => False) s) : a.Relays s := by
  induction h with
  | done h => exact .done h
  | fail hf h => exact .fail hf h
  | crash => exact .crash
  | invoke h _ herror ih => exact .invoke h ih herror

/-!
# Work of natives on the store
-/

namespace Store

variable {s : Store}

/-- Objects other than frames and closures may change. -/
theorem Rewrites.of_same {own : FrameId → Prop} {s s' : Store} (hframes : s'.frames = s.frames)
    (hclosures : s'.closures = s.closures) : s.Rewrites own s' :=
  .of_frames (.of_same hframes hclosures) hframes

theorem listReserve_same (s : Store) (l : ListId) :
    (s.listReserve l).frames = s.frames ∧ (s.listReserve l).closures = s.closures := by
  unfold listReserve
  dsimp only
  split
  · exact ⟨rfl, rfl⟩
  · split <;> exact ⟨rfl, rfl⟩

theorem rewrites_copy {own : FrameId → Prop} (s : Store) (v : Value) : s.Rewrites own (s.copy v).2 :=
  .of_frames (.copy s v) (Exec.copy_frames s v)

/-!
# Clones
-/

/-- A relation of stores that allows every change of objects other than frames and closures, and copies of
values, one after the other. -/
class Lenient (R : Store → Store → Prop) : Prop where
  trans : ∀ {s s' s'' : Store}, R s s' → R s' s'' → R s s''
  same : ∀ {s s' : Store}, s'.frames = s.frames → s'.closures = s.closures → R s s'
  copy : ∀ (s : Store) (v : Value), R s (s.copy v).2

instance {own : FrameId → Prop} : Lenient (Rewrites own) where
  trans := Rewrites.trans
  same := .of_same
  copy := rewrites_copy

namespace Lenient

variable {R : Store → Store → Prop} [Lenient R]

theorem refl (s : Store) : R s s :=
  same rfl rfl

theorem cloneAll {clone : Cloning → Value → Value × Cloning}
    (hclone : ∀ (c : Cloning) v, R c.store (clone c v).2.store) (vs : List Value) :
    ∀ (c : Cloning) (acc : Array Value), R c.store (Store.cloneAll clone c vs acc).2.store := by
  induction vs with
  | nil => exact fun c _ => refl c.store
  | cons v rest ih => exact fun c acc => trans (hclone c v) (ih _ _)

theorem cloneEntries {clone : Cloning → Value → Value × Cloning}
    (hclone : ∀ (c : Cloning) v, R c.store (clone c v).2.store) (entries : List (Text × Value)) :
    ∀ (c : Cloning) (acc : List (Text × Value)),
      R c.store (Store.cloneEntries clone c entries acc).2.store := by
  induction entries with
  | nil => exact fun c _ => refl c.store
  | cons e rest ih => exact fun c acc => trans (hclone c e.2) (ih _ _)

/-- Cloning adds objects, and copies closures. -/
theorem cloneWithin (fuel : Nat) : ∀ (c : Cloning) (v : Value),
    R c.store (Store.cloneWithin fuel c v).2.store := by
  induction fuel with
  | zero => exact fun c _ => refl c.store
  | succ fuel ih =>
    intro c v
    unfold Store.cloneWithin
    cases v with
    | closure id => exact copy c.store (.closure id)
    | list l =>
      dsimp only
      split
      · exact refl c.store
      · refine trans ?_ (trans (cloneAll ih _ _ #[]) (same rfl rfl))
        exact same rfl rfl
    | dict d =>
      dsimp only
      split
      · exact refl c.store
      · refine trans ?_ (trans (cloneEntries ih _ _ []) (same rfl rfl))
        exact same rfl rfl
    | inst i =>
      dsimp only
      split
      · exact refl c.store
      · split
        · exact refl c.store
        · refine trans ?_ (trans (cloneEntries ih _ _ []) (same rfl rfl))
          exact same rfl rfl
    | _ => exact refl c.store

theorem clone (s : Store) (v : Value) : R s (s.clone v).2 :=
  cloneWithin (s.containers + 1) ⟨s, []⟩ v

end Lenient

end Store

section
variable {R : Store → Store → Prop} [Store.Lenient R]

/-!
# Effects
-/

namespace Effect

open Store (Lenient)

variable {α β : Type}

/-- The effect changes the store as `R` allows, and fails with raised faults only. -/
def Tame (R : Store → Store → Prop) (e : Effect α) : Prop :=
  ∀ w, match e w with
    | .ok _ w' => R w.store w'.store
    | .error (.fault f) w' => f.Raised ∧ R w.store w'.store
    | .error (.crash _) w' => R w.store w'.store

@[simp] theorem tame_pure (a : α) : Tame R (pure a) :=
  fun _ => Lenient.refl _

@[simp] theorem tame_raise (f : Failure) (message : Text) : Tame R (raise f message : Effect α) :=
  fun _ => ⟨trivial, Lenient.refl _⟩

@[simp] theorem tame_crash (message : Text) : Tame R (crash message : Effect α) :=
  fun _ => Lenient.refl _

@[simp] theorem tame_reads (f : Store → α) : Tame R (reads f) :=
  fun _ => Lenient.refl _

@[simp] theorem tame_onHost (f : Host → α × Host) : Tame R (onHost f) :=
  fun _ => Lenient.refl _

/-- Objects other than frames and closures may change. -/
theorem tame_change {f : Store → Store} (hframes : ∀ s, (f s).frames = s.frames)
    (hclosures : ∀ s, (f s).closures = s.closures) : Tame R (change f) :=
  fun w => Lenient.same (hframes w.store) (hclosures w.store)

theorem tame_changeGet {f : Store → α × Store} (hframes : ∀ s, (f s).2.frames = s.frames)
    (hclosures : ∀ s, (f s).2.closures = s.closures) : Tame R (changeGet f) :=
  fun w => Lenient.same (hframes w.store) (hclosures w.store)

@[simp] theorem tame_copy (v : Value) : Tame R (changeGet fun s => s.copy v) :=
  fun w => Lenient.copy w.store v

@[simp] theorem tame_clone (v : Value) : Tame R (changeGet fun s => s.clone v) :=
  fun w => Lenient.clone w.store v

@[simp] theorem Tame.bind {e : Effect α} {k : α → Effect β} (he : Tame R e) (hk : ∀ a, Tame R (k a)) :
    Tame R (e >>= k) := by
  intro w
  have hw := he w
  show match EStateM.bind e k w with
    | .ok _ w' => _ | .error (.fault f) w' => _ | .error (.crash _) w' => _
  unfold EStateM.bind
  generalize e w = r at hw
  cases r with
  | ok a w' =>
    have hw' := hk a w'
    dsimp only
    generalize k a w' = r at hw'
    cases r with
    | ok b w'' => exact Lenient.trans hw hw'
    | error stop w'' =>
      cases stop with
      | fault f => exact ⟨hw'.1, Lenient.trans hw hw'.2⟩
      | crash => exact Lenient.trans hw hw'
  | error stop w' =>
    cases stop with
    | fault f => exact hw
    | crash => exact hw

@[simp] theorem Tame.map {e : Effect α} (f : α → β) (he : Tame R e) : Tame R (f <$> e) := by
  rw [← bind_pure_comp]
  exact he.bind fun a => tame_pure (f a)

omit [Lenient R] in
@[simp] theorem tame_ite {c : Prop} [Decidable c] {e e' : Effect α} :
    Tame R (if c then e else e') ↔ (c → Tame R e) ∧ (¬ c → Tame R e') := by
  by_cases hc : c <;> simp [hc]

@[simp] theorem tame_newList (items : Array Value) : Tame R (newList items) :=
  tame_changeGet (fun _ => rfl) fun _ => rfl

@[simp] theorem tame_typeName (v : Value) : Tame R (typeName v) :=
  tame_reads _

@[simp] theorem tame_display (v : Value) : Tame R (display v) :=
  tame_reads _

@[simp] theorem tame_impossible : Tame R (impossible : Effect α) :=
  tame_crash _

@[simp] theorem tame_mismatch (f : Failure) (name expected : String) (v : Value) :
    Tame R (mismatch f name expected v : Effect α) := by
  simp [mismatch]

@[simp] theorem tame_numberArg (name : String) (v : Value) : Tame R (numberArg name v) := by
  unfold numberArg
  split <;> simp

@[simp] theorem tame_textArg (name : String) (v : Value) : Tame R (textArg name v) := by
  unfold textArg
  split <;> simp

@[simp] theorem tame_dictArg (name : String) (v : Value) : Tame R (dictArg name v) := by
  unfold dictArg
  split <;> simp

@[simp] theorem tame_booleanArg (name : String) (v : Value) : Tame R (booleanArg name v) := by
  unfold booleanArg
  split <;> simp

@[simp] theorem tame_cannotApply (op left : String) (right : Value) :
    Tame R (cannotApply op left right : Effect α) := by
  simp [cannotApply]

/-- What a tame effect does to a native. -/
theorem Tame.relays {e : Effect Value} (he : Tame R e) (w : World) :
    (Action.ofEffect (do let v ← e; pure (some v)) w).RelaysWithin R w.store := by
  have htame : Tame R (do let v ← e; pure (some v)) := he.bind fun _ => tame_pure _
  have hw := htame w
  unfold Action.ofEffect
  generalize (do let v ← e; pure (some v) : Effect (Option Value)) w = r at hw
  cases r with
  | ok v w' => exact .done hw
  | error stop w' =>
    cases stop with
    | fault f => exact .fail hw.1 hw.2
    | crash => exact .crash hw

end Effect

/-!
# Primitives
-/

/-- The primitive relays, once it is a native, and changes the store as `R` allows. -/
def Primitive.RelaysWithin (R : Store → Store → Prop) (p : Primitive) : Prop :=
  ∀ args w, (p.behaviour args w).RelaysWithin R w.store

namespace Primitive

theorem relays_function {key : String} {arity : Option Nat} {f : List Value → Effect Value}
    (hf : ∀ args, (f args).Tame R) : (function key arity f).RelaysWithin R :=
  fun args w => (hf args).relays w

/-- A method refuses receivers of other types. -/
theorem relays_methodWith {type name : String} {arity : Nat} {b : Behaviour}
    (hb : ∀ args w, (b args w).RelaysWithin R w.store) : (methodWith type name arity b).RelaysWithin R := by
  intro args w
  show (guarded _ _ b args w).RelaysWithin R w.store
  unfold guarded
  split
  · exact hb _ w
  · split
    · exact hb _ w
    · exact .fail trivial (Store.Lenient.refl _)

theorem relays_method {type name : String} {arity : Nat} {f : List Value → Effect Value}
    (hf : ∀ args, (f args).Tame R) : (method type name arity f).RelaysWithin R :=
  relays_methodWith fun args w => (hf args).relays w

end Primitive

namespace Native

open Effect Primitive

@[simp] theorem tame_joinDisplay (args : List Value) : Tame R (joinDisplay args) :=
  tame_reads _

@[simp] theorem tame_print (t : Text) : Tame R (print t) :=
  tame_onHost _

@[simp] theorem tame_runForeign (code : Text) (bindings : List (Text × Value)) :
    Tame R (runForeign code bindings) := by
  refine (tame_onHost _).bind fun mode => ?_
  cases mode <;> simp

theorem relays_console : ∀ p ∈ consolePrimitives, p.RelaysWithin R := by
  simp only [consolePrimitives, List.forall_mem_cons, List.not_mem_nil, false_imp_iff,
    implies_true, and_true]
  refine ⟨?say, ?write, ?input, ?flush, ?readFile, ?foreign, ?assert⟩
  all_goals refine relays_function fun args => ?_
  case input =>
    rw [tame_ite]
    refine ⟨fun _ => .bind (tame_raise _ _) fun _ => ?_, fun _ => ?_⟩
    all_goals
      refine (tame_joinDisplay args).bind fun prompt => .bind (tame_onHost _) fun line => ?_
      cases line <;> simp
  case readFile =>
    split
    · refine Tame.bind (tame_textArg _ _) fun path => .bind (tame_onHost _) fun contents => ?_
      cases contents <;> simp
    · simp
  case foreign =>
    split
    · simp
    · refine Tame.bind (tame_textArg _ _) fun code => .bind (tame_dictArg _ _) fun d => ?_
      simp
    · simp
  case assert => split <;> simp
  all_goals simp

@[simp] theorem tame_numberRange (lo hi : Float) : Tame R (numberRange lo hi) := by
  unfold numberRange
  simp

theorem relays_types : ∀ p ∈ typePrimitives, p.RelaysWithin R := by
  simp only [typePrimitives, List.forall_mem_cons, List.not_mem_nil, false_imp_iff,
    implies_true, and_true]
  refine ⟨relays_function fun args => ?type, relays_function fun args => ?clone,
    relays_function fun args => ?eq, relays_function fun args => ?neq,
    relays_function fun args => ?range, relays_method fun args => ?name,
    relays_method fun args => ?fields⟩
  all_goals split <;> simp

theorem relays_numbers : ∀ p ∈ numberPrimitives, p.RelaysWithin R := by
  have hmethod : ∀ name f, (numberMethod name f).RelaysWithin R := by
    refine fun name f => relays_method fun args => ?_
    split <;> simp
  have hop : ∀ op ∈ numberOps, ∀ a b, (op.apply a b).Tame R := by
    simp [numberOps, divided]
  simp only [numberPrimitives, List.forall_mem_append, List.forall_mem_cons, List.forall_mem_map, hmethod,
    List.not_mem_nil, false_imp_iff, implies_true, and_true]
  refine fun op h => relays_method fun args => ?_
  split
  · exact hop op h _ _
  · simp
  · simp

@[simp] theorem tame_parseNumber (t : Text) : Tame R (parseNumber t) := by
  unfold parseNumber
  split <;> simp

@[simp] theorem tame_charList (t : Text) : Tame R (charList t) := by
  unfold charList
  exact tame_changeGet (fun _ => rfl) fun _ => rfl

@[simp] theorem tame_newIterator (items : Value) : Tame R (newIterator items) :=
  tame_changeGet (fun _ => rfl) fun _ => rfl

@[simp] theorem tame_repeated (t : Text) (n : Float) : Tame R (repeated t n) := by
  unfold repeated
  simp

theorem relays_strings : ∀ p ∈ stringPrimitives, p.RelaysWithin R := by
  have hmethod : ∀ name {f : Text → Effect Value}, (∀ t, (f t).Tame R) →
      (stringMethod name f).RelaysWithin R := by
    intro name f hf
    refine relays_method fun args => ?_
    split
    · exact hf _
    · simp
  have hcomparison : ∀ method token holds, (comparison method token holds).RelaysWithin R := by
    intro method token holds
    refine relays_method fun args => ?_
    split <;> simp
  simp only [stringPrimitives, List.forall_mem_cons, List.not_mem_nil, false_imp_iff,
    implies_true, and_true, hcomparison, true_and]
  refine ⟨relays_method fun args => ?plus, relays_method fun args => ?times, hmethod _ ?len,
    hmethod _ ?upper, hmethod _ ?lower, relays_method fun args => ?split,
    relays_method fun args => ?contains, hmethod _ tame_parseNumber, hmethod _ ?iter⟩
  case len | upper | lower | iter => simp
  all_goals split <;> simp

@[simp] theorem tame_listIndex (l : ListId) (key : Value) (n : Nat) : Tame R (listIndex l key n) := by
  unfold listIndex
  split
  · split <;> simp
  · simp

@[simp] theorem tame_listPush (l : ListId) (v : Value) : Tame R (change fun s => s.listPush l v) :=
  tame_change (fun s => (s.listReserve_same l).1) fun s => (s.listReserve_same l).2

@[simp] theorem tame_listInsert (l : ListId) (i : Nat) (v : Value) :
    Tame R (change fun s => s.listInsert l i v) :=
  tame_change (fun s => (s.listReserve_same l).1) fun s => (s.listReserve_same l).2

@[simp] theorem tame_listSet (l : ListId) (i : Nat) (v : Value) :
    Tame R (change fun s => s.listSet l i v) :=
  tame_change (fun _ => rfl) fun _ => rfl

@[simp] theorem tame_listRemove (l : ListId) (i : Nat) : Tame R (change fun s => s.listRemove l i) :=
  tame_change (fun _ => rfl) fun _ => rfl

@[simp] theorem tame_listPop (l : ListId) : Tame R (change fun s => s.listPop l) :=
  tame_change (fun _ => rfl) fun _ => rfl

@[simp] theorem tame_modifyDict (d : DictId) (f : Table Value → Table Value) :
    Tame R (change fun s => s.modifyDict d f) :=
  tame_change (fun _ => rfl) fun _ => rfl

@[simp] theorem tame_setField (i : InstanceId) (name : Text) (v : Value) :
    Tame R (change fun s => s.setField i name v) :=
  tame_change (fun _ => rfl) fun _ => rfl

/-- The calls that a method makes on a row. -/
theorem relays_callback {f : Value} {row : Nat} {collect : Collector}
    {finish : List Value → World → Action}
    (hcollect : ∀ s item v e, collect s item v = .error e → e.Raised)
    (hfinish : ∀ kept w, (finish kept w).RelaysWithin R w.store) (n : Nat) :
    ∀ (i : Nat) (kept : List Value) (w : World),
      (callback f row collect finish n i kept w).RelaysWithin R w.store := by
  induction n with
  | zero => exact fun _ kept w => hfinish kept.reverse w
  | succ n ih =>
    intro i kept w
    unfold callback
    refine .invoke (Store.Lenient.refl _) (fun v w' => ?_) fun _ _ => rfl
    dsimp only
    split
    · exact ih _ _ w'
    · rename_i e he
      exact .fail (hcollect _ _ _ e he) (Store.Lenient.refl _)

theorem relays_callbackMethod {name : String} {collect : Collector}
    {finish : Nat → List Value → World → Action}
    (hcollect : ∀ s item v e, collect s item v = .error e → e.Raised)
    (hfinish : ∀ capacity kept w, (finish capacity kept w).RelaysWithin R w.store) :
    (callbackMethod name collect finish).RelaysWithin R := by
  refine relays_methodWith fun args w => ?_
  dsimp only
  split
  · exact relays_callback hcollect (hfinish _) _ 0 [] w
  · exact .crash (Store.Lenient.refl _)

theorem keepIf_raises {s : Store} {item v : Value} {e : Fault} (h : keepIf s item v = .error e) :
    e.Raised := by
  unfold keepIf at h
  split at h
  · cases h
  · cases h
  · cases h
    trivial

theorem relays_lists : ∀ p ∈ listPrimitives, p.RelaysWithin R := by
  have hfinish : ∀ capacity kept w, (finishList capacity kept w).RelaysWithin R w.store :=
    fun _ _ _ => .done (Store.Lenient.same rfl rfl)
  simp only [listPrimitives, List.forall_mem_cons, List.not_mem_nil, false_imp_iff,
    implies_true, and_true]
  refine ⟨relays_method fun args => ?plus, relays_method fun args => ?push,
    relays_method fun args => ?pop, relays_method fun args => ?len, relays_method fun args => ?get,
    relays_method fun args => ?set, relays_method fun args => ?insert,
    relays_method fun args => ?remove, relays_method fun args => ?contains,
    relays_method fun args => ?join, ?map, ?filter, ?each, relays_method fun args => ?iter⟩
  case map => exact relays_callbackMethod (fun _ _ _ _ h => by cases h) hfinish
  case filter => exact relays_callbackMethod (fun _ _ _ _ => keepIf_raises) hfinish
  case each =>
    exact relays_callbackMethod (fun _ _ _ _ h => by cases h) fun _ _ _ => .done (Store.Lenient.refl _)
  case pop =>
    split
    · refine (tame_reads _).bind fun size => ?_
      simp
    · simp
  case set | insert | remove =>
    split
    · refine Tame.bind (tame_reads _) fun size => .bind (tame_listIndex _ _ _) fun i => ?_
      simp
    · simp
  all_goals split <;> simp

/-- The value under a key, if it is bound. -/
@[simp] theorem tame_dictEntry (d : DictId) (key : Text) : Tame R (dictEntry d key) := by
  refine (tame_reads _).bind fun found => ?_
  split <;> simp

theorem relays_dicts : ∀ p ∈ dictPrimitives, p.RelaysWithin R := by
  simp only [dictPrimitives, List.forall_mem_cons, List.not_mem_nil, false_imp_iff, implies_true,
    and_true]
  refine ⟨relays_method fun args => ?get, relays_method fun args => ?set,
    relays_method fun args => ?has, relays_method fun args => ?keys,
    relays_method fun args => ?values, relays_method fun args => ?len,
    relays_method fun args => ?remove, relays_method fun args => ?iter⟩
  case remove =>
    split
    · refine Tame.bind (tame_textArg _ _) fun key => .bind (tame_dictEntry _ _) fun v => ?_
      simp
    · simp
  all_goals split <;> simp

@[simp] theorem tame_wrongField (field expected : String) (v : Value) :
    Tame R (wrongField field expected v) := by
  simp [wrongField]

theorem tame_next (it : InstanceId) : Tame R (next it) := by
  refine (tame_reads _).bind fun items => (tame_reads _).bind fun position => ?_
  split
  · split
    · refine (tame_reads _).bind fun size => tame_ite.mpr ⟨fun _ => tame_newList _, fun _ => ?_⟩
      exact (tame_setField _ _ _).bind fun _ => by simp
    · simp
  · simp

theorem relays_iterators : ∀ p ∈ iteratorPrimitives, p.RelaysWithin R := by
  simp only [iteratorPrimitives, List.forall_mem_cons, List.not_mem_nil, false_imp_iff, implies_true,
    and_true]
  refine relays_method fun args => ?_
  split
  · exact tame_next _
  · simp

end Native

end

/-!
# The library
-/

namespace Library

theorem behaviours_define (l : Library) (key : Text) (v : Value) :
    (l.define key v).behaviours = l.behaviours := rfl

/-- Registering adds the behaviours of the primitives. -/
theorem mem_registerAll {ps : List Primitive} {l : Library} {b : Behaviour}
    (h : b ∈ (l.registerAll ps).behaviours) : b ∈ l.behaviours ∨ ∃ p ∈ ps, b = p.behaviour := by
  induction ps generalizing l with
  | nil => exact .inl h
  | cons p rest ih =>
    rcases ih (l := l.register p) h with hmem | ⟨q, hq, rfl⟩
    · rcases Array.mem_push.mp hmem with hmem | rfl
      · exact .inl hmem
      · exact .inr ⟨p, List.mem_cons_self, rfl⟩
    · exact .inr ⟨q, List.mem_cons_of_mem p hq, rfl⟩

theorem behaviours_types (names : List String) (l : Library) :
    (names.foldl (fun l name => l.define name (.type (TypeInfo.conversion name))) l).behaviours =
      l.behaviours := by
  induction names generalizing l with
  | nil => rfl
  | cons name rest ih => exact ih _

theorem mem_standard {b : Behaviour} (h : b ∈ standard.behaviours) :
    ∃ p ∈ standardPrimitives, b = p.behaviour := by
  unfold standard at h
  rw [behaviours_define] at h
  rcases mem_registerAll h with hmem | hmem
  · rw [behaviours_types] at hmem
    exact absurd hmem (Array.not_mem_empty b)
  · exact hmem

/-- Primitives with other keys leave what a key is bound to. -/
theorem resolve_registerAll_of_notMem {ps : List Primitive} {l : Library} {key : Text}
    (h : key ∉ ps.map (·.key)) : (l.registerAll ps).resolve key = l.resolve key := by
  induction ps generalizing l with
  | nil => rfl
  | cons p rest ih =>
    obtain ⟨hne, hrest⟩ := not_or.mp (List.mem_cons.not.mp h)
    show ((l.register p).registerAll rest).resolve key = _
    rw [ih hrest]
    exact (Table.get?_insert ..).trans (if_neg (Ne.symm hne))

/-- Where no key stands twice, each primitive is bound under its key and numbered by its place. -/
theorem resolve_registerAll {ps : List Primitive} {l : Library} {i : Nat} {p : Primitive}
    (hkeys : (ps.map (·.key)).Nodup) (h : ps[i]? = some p) :
    (l.registerAll ps).resolve p.key = some (.native ⟨p.key, p.arity, l.behaviours.size + i⟩) := by
  induction ps generalizing l i with
  | nil => cases h
  | cons q rest ih =>
    obtain ⟨hfresh, hrest⟩ := List.nodup_cons.mp hkeys
    show ((l.register q).registerAll rest).resolve p.key = _
    cases i with
    | zero =>
      cases h
      rw [resolve_registerAll_of_notMem hfresh]
      exact (Table.get?_insert ..).trans (if_pos rfl)
    | succ i =>
      have hsize : (l.register q).behaviours.size + i = l.behaviours.size + (i + 1) := by
        show (l.behaviours.push q.behaviour).size + i = _
        rw [Array.size_push]
        omega
      rw [ih hrest h, hsize]

theorem standard_keys : ((iteratorName : Text) :: standardPrimitives.map (·.key)).Nodup := by
  decide +kernel

/-- A primitive of the language is bound under its key, as the native with its place. -/
theorem standard_native {i : Nat} {key : Text} {arity : Option Nat} {b : Behaviour}
    (h : standardPrimitives[i]? = some ⟨key, arity, b⟩) :
    standard.resolve key = some (.native ⟨key, arity, i⟩) := by
  obtain ⟨hiterator, hkeys⟩ := List.nodup_cons.mp standard_keys
  have hne : (iteratorName : Text) ≠ key := by
    rintro rfl
    exact hiterator (List.mem_map.mpr ⟨_, List.mem_of_getElem? h, rfl⟩)
  refine (Table.get?_insert ..).trans ((if_neg hne).trans ?_)
  refine (resolve_registerAll hkeys h).trans ?_
  rw [behaviours_types, empty, Array.size_empty, Nat.zero_add]

theorem relays_standard {R : Store → Store → Prop} [Store.Lenient R] :
    ∀ p ∈ standardPrimitives, p.RelaysWithin R := by
  simp only [standardPrimitives, List.forall_mem_append]
  exact ⟨⟨⟨⟨⟨⟨Native.relays_console, Native.relays_types⟩, Native.relays_numbers⟩,
    Native.relays_strings⟩, Native.relays_lists⟩, Native.relays_dicts⟩, Native.relays_iterators⟩

/-- A library relays whose natives are the standard ones, under whatever names. -/
theorem relays_of_standard {l : Library} (h : l.behaviours = standard.behaviours) : l.Relays := by
  intro info args w
  unfold behaviour
  cases hb : l.behaviours[info.behaviour]? with
  | none => exact .crash
  | some b =>
    rw [h] at hb
    obtain ⟨p, hp, rfl⟩ := mem_standard (Array.mem_of_getElem? hb)
    exact (relays_standard p hp args w).relays

end Library

/-!
# What natives are allowed to do

A native has the store for itself from the moment it begins, or goes on, to the moment it ends, fails,
crashes or asks for something. Also the functions that a host may add change it in between as every
lenient relation allows, and none takes the engine back to another moment than one that it kept itself.
-/

/-- The action, begun in a store, changes it as `R` allows each time that it has it, and goes back only to
the snapshots `kept` and to those that it takes. -/
inductive Action.Abides (R : Store → Store → Prop) : List Snapshot → Store → Action → Prop
  | done {kept : List Snapshot} {s : Store} {r : Option Value} {w : World} (h : R s w.store) :
    Abides R kept s (.done r w)
  | fail {kept : List Snapshot} {s : Store} {f : Fault} {w : World} (h : R s w.store) :
    Abides R kept s (.fail f w)
  | crash {kept : List Snapshot} {s : Store} {message : Text} {w : World} (h : R s w.store) :
    Abides R kept s (.crash message w)
  | invoke {kept : List Snapshot} {s : Store} {callee : Value} {args : List Value} {w : World}
    {resume : Except Fault Value → World → Action} (h : R s w.store)
    (hresume : ∀ o w', Abides R kept w'.store (resume o w')) :
    Abides R kept s (.invoke callee args w resume)
  | depth {kept : List Snapshot} {s : Store} {w : World} {resume : Nat → World → Action}
    (h : R s w.store) (hresume : ∀ n, Abides R kept w.store (resume n w)) :
    Abides R kept s (.depth w resume)
  | save {kept : List Snapshot} {s : Store} {w : World} {resume : Snapshot → World → Action}
    (h : R s w.store) (hresume : ∀ sn, Abides R (sn :: kept) w.store (resume sn w)) :
    Abides R kept s (.save w resume)
  | restore {kept : List Snapshot} {s : Store} {sn : Snapshot} {w : World} {resume : World → Action}
    (h : R s w.store) (hsn : sn ∈ kept) (hresume : Abides R kept w.store (resume w)) :
    Abides R kept s (.restore sn w resume)

/-- The primitive changes the store as `R` allows, once it is a native. -/
def Primitive.Abides (R : Store → Store → Prop) (p : Primitive) : Prop :=
  ∀ args w, (p.behaviour args w).Abides R [] w.store

/-- Every native of the library changes the store as `R` allows. -/
def Library.Abides (l : Library) (R : Store → Store → Prop) : Prop :=
  ∀ info args w, (l.behaviour info args w).Abides R [] w.store

section
variable {R : Store → Store → Prop} [Store.Lenient R]

/-- What relays keeps no snapshots, and passes on the fault of a call. -/
theorem Action.RelaysWithin.abides {s : Store} {a : Action} (h : a.RelaysWithin R s) : a.Abides R [] s := by
  induction h with
  | done h => exact .done h
  | fail _ h => exact .fail h
  | crash h => exact .crash h
  | invoke h _ herror ih =>
    refine .invoke h fun o w' => ?_
    cases o with
    | ok v => exact ih v w'
    | error f =>
      rw [herror]
      exact .fail (Store.Lenient.refl _)

theorem Primitive.RelaysWithin.abides {p : Primitive} (h : p.RelaysWithin R) : p.Abides R :=
  fun args w => (h args w).abides

namespace Native

open Effect Primitive

/-!
# Conversions
-/

theorem tame_convert (v : Value) (target : Text) : Tame R (convert v target) := by
  have hrefuse : ∀ v, Tame R (cannotConvert v target) :=
    fun v => (tame_typeName v).bind fun _ => tame_raise _ _
  have hfields : ∀ i, Tame R (fieldDict i) :=
    fun _ => tame_changeGet (fun _ => rfl) fun _ => rfl
  unfold convert
  refine (tame_typeName v).bind fun own => ?_
  split
  · exact tame_copy v
  split
  · simp
  split
  · split <;> simp [hrefuse]
  split
  · split <;> simp [hrefuse]
  split
  · split <;> simp [hrefuse]
  split
  · split <;> simp [hrefuse, hfields]
  split
  · simp
  · exact hrefuse v

/-!
# Functions of hosts
-/

theorem abides_calling {finish : Except Fault Value → World → Action}
    (hfinish : ∀ o w, (finish o w).Abides R [] w.store) (args : List Value) (w : World) :
    (calling finish args w).Abides R [] w.store := by
  unfold calling
  split
  · exact .crash (Store.Lenient.refl _)
  · exact .invoke (Store.Lenient.refl _) hfinish

theorem abides_passOn (kept : List Snapshot) (o : Except Fault Value) (w : World) :
    (passOn o w).Abides R kept w.store := by
  cases o with
  | ok v => exact .done (Store.Lenient.refl _)
  | error f => exact .fail (Store.Lenient.refl _)

/-- The moment that the engine is taken back to is the one that was kept before the call. -/
theorem abides_rollback (args : List Value) (w : World) : (rollback args w).Abides R [] w.store := by
  unfold rollback
  split
  · exact .crash (Store.Lenient.refl _)
  · refine .save (Store.Lenient.refl _) fun sn => .invoke (Store.Lenient.refl _) fun o w' => ?_
    exact .restore (Store.Lenient.refl _) List.mem_cons_self (abides_passOn _ o w')

theorem abides_embedding : ∀ p ∈ embeddingPrimitives, p.Abides R := by
  simp only [embeddingPrimitives, List.forall_mem_cons, List.not_mem_nil, false_imp_iff, implies_true,
    and_true]
  refine ⟨?error, (relays_function fun args => ?raise).abides, ?nil, ?invoke, ?attempt, ?depth, ?rollback,
    (relays_function fun args => ?panic).abides, (relays_function fun args => ?print).abides,
    (relays_method fun args => ?flip).abides, (relays_method fun args => ?plus).abides⟩
  case error =>
    intro args w
    match args with
    | [v] => exact .fail (Store.Lenient.refl _)
    | [] | _ :: _ :: _ => exact .crash (Store.Lenient.refl _)
  case nil => exact fun _ w => .done (Store.Lenient.refl _)
  case invoke => exact abides_calling (abides_passOn [])
  case attempt => exact abides_calling fun o w => ((tame_newList _).relays w).abides
  case depth => exact fun _ w => .depth (Store.Lenient.refl _) fun _ => .done (Store.Lenient.refl _)
  case rollback => exact abides_rollback
  all_goals split <;> simp

end Native

/-!
# Libraries
-/

namespace Library

/-- What is asked of a library is asked of its behaviours. -/
theorem abides_of_behaviours {l : Library}
    (h : ∀ b ∈ l.behaviours, ∀ args w, (b args w).Abides R [] w.store) : l.Abides R := by
  intro info args w
  unfold behaviour
  cases hb : l.behaviours[info.behaviour]? with
  | some b => exact h b (Array.mem_of_getElem? hb) args w
  | none => exact .crash (Store.Lenient.refl _)

/-- The behaviours of a library whose natives are the standard ones, and of those that a host may add. -/
theorem abides_of_standard {l : Library}
    (h : ∀ b ∈ l.behaviours, b ∈ standard.behaviours ∨ ∃ p ∈ Native.embeddingPrimitives, b = p.behaviour) :
    l.Abides R := by
  refine abides_of_behaviours fun b hb => ?_
  rcases h b hb with hb | ⟨p, hp, rfl⟩
  · obtain ⟨p, hp, rfl⟩ := mem_standard hb
    exact (relays_standard p hp).abides
  · exact Native.abides_embedding p hp

end Library

end

end ScriptEngine
