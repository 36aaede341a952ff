import ScriptEngine.Proofs.Machine.Unplaced
import ScriptEngine.Proofs.Native.Conduct
import ScriptEngine.Proofs.Native.Standard

/-!
# Natives that look at no places

A native ignores places if it does the same wherever the calls in progress were made and wherever the
faults that it is handed were located: it fails with the same words, and what it returns, prints and has
called is the same. The natives of the standard library do. They work on values, which know nothing of
places, and hand on the faults of their callbacks as they are.
-/

namespace ScriptEngine

/-- The actions agree but for places: they are begun in worlds that differ in places only, and resumed
with outcomes that differ in places only. -/
inductive Action.Agrees : Action → Action → Prop
  | done {r : Option Value} {w w' : World} (h : w.unplaced = w'.unplaced) :
    Agrees (.done r w) (.done r w')
  | fail {f f' : Fault} {w w' : World} (hf : f.unplaced = f'.unplaced)
    (h : w.unplaced = w'.unplaced) : Agrees (.fail f w) (.fail f' w')
  | crash {message : Text} {w w' : World} (h : w.unplaced = w'.unplaced) :
    Agrees (.crash message w) (.crash message w')
  | invoke {callee : Value} {args : List Value} {w w' : World}
    {resume resume' : Except Fault Value → World → Action} (h : w.unplaced = w'.unplaced)
    (hresume : ∀ o o' v v', unplacedOutcome o = unplacedOutcome o' → v.unplaced = v'.unplaced →
      Agrees (resume o v) (resume' o' v')) :
    Agrees (.invoke callee args w resume) (.invoke callee args w' resume')
  | depth {w w' : World} {resume resume' : Nat → World → Action} (h : w.unplaced = w'.unplaced)
    (hresume : ∀ n v v', v.unplaced = v'.unplaced → Agrees (resume n v) (resume' n v')) :
    Agrees (.depth w resume) (.depth w' resume')
  | save {w w' : World} {resume resume' : Snapshot → World → Action} (h : w.unplaced = w'.unplaced)
    (hresume : ∀ s v v', v.unplaced = v'.unplaced → Agrees (resume s v) (resume' s v')) :
    Agrees (.save w resume) (.save w' resume')
  | restore {s : Snapshot} {w w' : World} {resume resume' : World → Action}
    (h : w.unplaced = w'.unplaced)
    (hresume : ∀ v v', v.unplaced = v'.unplaced → Agrees (resume v) (resume' v')) :
    Agrees (.restore s w resume) (.restore s w' resume')

/-- What is read off the objects of a world does not depend on places. -/
theorem World.reads_of_unplaced {α : Type} {w w' : World} (h : w.unplaced = w'.unplaced) (f : Store → α)
    (hf : ∀ s, f (Store.guised Frame.unplaced s) = f s) : f w.store = f w'.store :=
  (hf w.store).symm.trans ((congrArg (fun w : World => f w.store) h).trans (hf w'.store))

/-- The behaviour is the same wherever the calls in progress were made. -/
def Behaviour.IgnoresPlaces (b : Behaviour) : Prop :=
  ∀ args w w', w.unplaced = w'.unplaced → (b args w).Agrees (b args w')

/-- No native of the library looks at places. -/
def Library.IgnoresPlaces (l : Library) : Prop :=
  ∀ info, (l.behaviour info).IgnoresPlaces

/-!
# Effects
-/

namespace Effect

variable {α β : Type}

/-- The effect does the same in the world without places. -/
def Placeless (e : Effect α) : Prop :=
  ∀ w, e w.unplaced =
    match e w with
    | .ok a w => .ok a w.unplaced
    | .error stop w => .error stop w.unplaced

@[simp] theorem placeless_pure (a : α) : Placeless (pure a) :=
  fun _ => rfl

@[simp] theorem placeless_raise (f : Failure) (message : Text) :
    Placeless (raise f message : Effect α) :=
  fun _ => rfl

@[simp] theorem placeless_crash (message : Text) : Placeless (crash message : Effect α) :=
  fun _ => rfl

@[simp] theorem placeless_onHost (f : Host → α × Host) : Placeless (onHost f) :=
  fun _ => rfl

@[simp] theorem placeless_reads {f : Store → α} :
    Placeless (reads f) ↔ ∀ s : Store, f (s.guised Frame.unplaced) = f s := by
  have hrun : ∀ w : World, reads f w = .ok (f w.store) w := fun _ => rfl
  refine ⟨fun h s => ?_, fun h w => ?_⟩
  · have hw := h ⟨s, default, default⟩
    rw [hrun, hrun] at hw
    injection hw
  · rw [hrun, hrun]
    exact congrArg (EStateM.Result.ok · _) (h w.store)

@[simp] theorem placeless_changeGet {f : Store → α × Store} :
    Placeless (changeGet f) ↔
      ∀ s : Store, f (s.guised Frame.unplaced) = ((f s).1, (f s).2.guised Frame.unplaced) := by
  have hrun : ∀ w : World, changeGet f w = .ok (f w.store).1 { w with store := (f w.store).2 } :=
    fun _ => rfl
  refine ⟨fun h s => ?_, fun h w => ?_⟩
  · have hw := h ⟨s, default, default⟩
    rw [hrun, hrun] at hw
    injection hw with hvalue hworld
    exact Prod.ext hvalue (congrArg World.store hworld)
  · have hw := h w.store
    rw [hrun, hrun]
    show EStateM.Result.ok (f (w.store.guised Frame.unplaced)).1
      { w.unplaced with store := (f (w.store.guised Frame.unplaced)).2 } = _
    rw [hw]
    rfl

@[simp] theorem placeless_change {f : Store → Store} :
    Placeless (change f) ↔
      ∀ s : Store, f (s.guised Frame.unplaced) = (f s).guised Frame.unplaced := by
  have hchange : change f = changeGet fun s => ((), f s) := rfl
  rw [hchange, placeless_changeGet]
  simp only [Prod.mk.injEq, true_and]

@[simp] theorem Placeless.bind {e : Effect α} {k : α → Effect β} (he : Placeless e)
    (hk : ∀ a, Placeless (k a)) : Placeless (e >>= k) := by
  intro w
  have hw := he w
  show EStateM.bind e k w.unplaced = match EStateM.bind e k w with | .ok _ w => _ | .error _ w => _
  unfold EStateM.bind
  rw [hw]
  cases e w with
  | ok a w' => exact hk a w'
  | error stop w' => rfl

@[simp] theorem Placeless.map {e : Effect α} (f : α → β) (he : Placeless e) : Placeless (f <$> e) := by
  rw [← bind_pure_comp]
  exact he.bind fun a => placeless_pure (f a)

@[simp] theorem placeless_ite {c : Prop} [Decidable c] {e e' : Effect α} :
    Placeless (if c then e else e') ↔ (c → Placeless e) ∧ (¬ c → Placeless e') := by
  by_cases hc : c <;> simp [hc]

@[simp] theorem placeless_newList (items : Array Value) : Placeless (newList items) :=
  placeless_changeGet.mpr fun _ => rfl

@[simp] theorem placeless_typeName (v : Value) : Placeless (typeName v) :=
  placeless_reads.mpr fun s => s.typeName_guised v

@[simp] theorem placeless_display (v : Value) : Placeless (display v) :=
  placeless_reads.mpr fun s => s.display_guised v

@[simp] theorem placeless_impossible : Placeless (impossible : Effect α) :=
  placeless_crash _

@[simp] theorem placeless_mismatch (f : Failure) (name expected : String) (v : Value) :
    Placeless (mismatch f name expected v : Effect α) := by
  simp [mismatch]

@[simp] theorem placeless_numberArg (name : String) (v : Value) : Placeless (numberArg name v) := by
  unfold numberArg
  split <;> simp

@[simp] theorem placeless_textArg (name : String) (v : Value) : Placeless (textArg name v) := by
  unfold textArg
  split <;> simp

@[simp] theorem placeless_dictArg (name : String) (v : Value) : Placeless (dictArg name v) := by
  unfold dictArg
  split <;> simp

@[simp] theorem placeless_booleanArg (name : String) (v : Value) : Placeless (booleanArg name v) := by
  unfold booleanArg
  split <;> simp

@[simp] theorem placeless_cannotApply (op left : String) (right : Value) :
    Placeless (cannotApply op left right : Effect α) := by
  simp [cannotApply]

/-- What a placeless effect does as a native. -/
theorem Placeless.agrees {e : Effect (Option Value)} (he : Placeless e) {w w' : World}
    (h : w.unplaced = w'.unplaced) : (Action.ofEffect e w).Agrees (Action.ofEffect e w') := by
  have hw := (he w).symm.trans ((congrArg e h).trans (he w'))
  unfold Action.ofEffect
  generalize e w = r at hw
  generalize e w' = r' at hw
  cases r with
  | ok v w =>
    cases r' with
    | ok v' w' =>
      injection hw with hv hw
      subst hv
      exact .done hw
    | error => cases hw
  | error stop w =>
    cases r' with
    | ok => cases hw
    | error stop' w' =>
      injection hw with hstop hw
      subst hstop
      cases stop with
      | fault f => exact .fail rfl hw
      | crash message => exact .crash hw

end Effect

/-!
# Primitives
-/

/-- The primitive looks at no places, once it is a native. -/
def Primitive.IgnoresPlaces (p : Primitive) : Prop :=
  p.behaviour.IgnoresPlaces

namespace Primitive

theorem ignores_function {key : String} {arity : Option Nat} {f : List Value → Effect Value}
    (hf : ∀ args, (f args).Placeless) : (function key arity f).IgnoresPlaces :=
  fun args _ _ h => ((hf args).bind fun _ => Effect.placeless_pure _).agrees h

/-- A method refuses receivers of other types. -/
theorem ignores_methodWith {type name : String} {arity : Nat} {b : Behaviour}
    (hb : b.IgnoresPlaces) : (methodWith type name arity b).IgnoresPlaces := by
  intro args w w' h
  show (guarded _ _ b args w).Agrees (guarded _ _ b args w')
  unfold guarded
  split
  · exact hb _ w w' h
  · rename_i receiver rest
    have hbuiltin : w.store.isBuiltin receiver type = w'.store.isBuiltin receiver type :=
      World.reads_of_unplaced h (·.isBuiltin _ _) fun s => s.isBuiltin_guised receiver type
    have hdescribe : w.store.describe receiver = w'.store.describe receiver :=
      World.reads_of_unplaced h (·.describe _) fun s => s.describe_guised receiver
    rw [hbuiltin, hdescribe]
    split
    · exact hb _ w w' h
    · exact .fail rfl h

theorem ignores_method {type name : String} {arity : Nat} {f : List Value → Effect Value}
    (hf : ∀ args, (f args).Placeless) : (method type name arity f).IgnoresPlaces :=
  ignores_methodWith fun args _ _ h => ((hf args).bind fun _ => Effect.placeless_pure _).agrees h

end Primitive

namespace Native

open Effect Primitive

@[simp] theorem placeless_joinDisplay (args : List Value) : Placeless (joinDisplay args) := by
  unfold joinDisplay
  rw [placeless_reads]
  intro s
  rw [show (s.guised Frame.unplaced).display = s.display from funext s.display_guised]

@[simp] theorem placeless_print (t : Text) : Placeless (print t) :=
  placeless_onHost _

@[simp] theorem placeless_runForeign (code : Text) (bindings : List (Text × Value)) :
    Placeless (runForeign code bindings) := by
  refine (placeless_onHost _).bind fun mode => ?_
  cases mode <;> simp

theorem ignores_console : ∀ p ∈ consolePrimitives, p.IgnoresPlaces := by
  simp only [consolePrimitives, List.forall_mem_cons, List.not_mem_nil, false_imp_iff,
    implies_true, and_true]
  refine ⟨?say, ?write, ?input, ?flush, ?readFile, ?foreign, ?assert⟩
  all_goals refine ignores_function fun args => ?_
  case input =>
    rw [placeless_ite]
    refine ⟨fun _ => .bind (placeless_raise _ _) fun _ => ?_, fun _ => ?_⟩
    all_goals
      refine (placeless_joinDisplay args).bind fun prompt => .bind (placeless_onHost _) fun line => ?_
      cases line <;> simp
  case readFile =>
    split
    · refine Placeless.bind (placeless_textArg _ _) fun path => .bind (placeless_onHost _)
        fun contents => ?_
      cases contents <;> simp
    · simp
  case foreign =>
    split
    · simp
    · refine Placeless.bind (placeless_textArg _ _) fun code =>
        .bind (placeless_dictArg _ _) fun d => ?_
      simp
    · simp
  case assert => split <;> simp
  all_goals simp

@[simp] theorem placeless_numberRange (lo hi : Float) : Placeless (numberRange lo hi) := by
  unfold numberRange
  simp

theorem ignores_types : ∀ p ∈ typePrimitives, p.IgnoresPlaces := by
  simp only [typePrimitives, List.forall_mem_cons, List.not_mem_nil, false_imp_iff,
    implies_true, and_true]
  refine ⟨ignores_function fun args => ?type, ignores_function fun args => ?clone,
    ignores_function fun args => ?eq, ignores_function fun args => ?neq,
    ignores_function fun args => ?range, ignores_method fun args => ?name,
    ignores_method fun args => ?fields⟩
  all_goals split <;> simp

theorem ignores_numbers : ∀ p ∈ numberPrimitives, p.IgnoresPlaces := by
  have hmethod : ∀ name f, (numberMethod name f).IgnoresPlaces := by
    refine fun name f => ignores_method fun args => ?_
    split <;> simp
  have hop : ∀ op ∈ numberOps, ∀ a b, (op.apply a b).Placeless := by
    simp [numberOps, divided]
  simp only [numberPrimitives, List.forall_mem_append, List.forall_mem_cons, List.forall_mem_map, hmethod,
    List.not_mem_nil, false_imp_iff, implies_true, and_true]
  refine fun op h => ignores_method fun args => ?_
  split
  · exact hop op h _ _
  · simp
  · simp

@[simp] theorem placeless_parseNumber (t : Text) : Placeless (parseNumber t) := by
  unfold parseNumber
  split <;> simp

@[simp] theorem placeless_charList (t : Text) : Placeless (charList t) := by
  unfold charList
  exact placeless_changeGet.mpr fun _ => rfl

@[simp] theorem placeless_newIterator (items : Value) : Placeless (newIterator items) :=
  placeless_changeGet.mpr fun _ => rfl

@[simp] theorem placeless_repeated (t : Text) (n : Float) : Placeless (repeated t n) := by
  unfold repeated
  simp

theorem ignores_strings : ∀ p ∈ stringPrimitives, p.IgnoresPlaces := by
  have hmethod : ∀ name {f : Text → Effect Value}, (∀ t, (f t).Placeless) →
      (stringMethod name f).IgnoresPlaces := by
    intro name f hf
    refine ignores_method fun args => ?_
    split
    · exact hf _
    · simp
  have hcomparison : ∀ method token holds, (comparison method token holds).IgnoresPlaces := by
    intro method token holds
    refine ignores_method fun args => ?_
    split <;> simp
  simp only [stringPrimitives, List.forall_mem_cons, List.not_mem_nil, false_imp_iff,
    implies_true, and_true, hcomparison, true_and]
  refine ⟨ignores_method fun args => ?plus, ignores_method fun args => ?times, hmethod _ ?len,
    hmethod _ ?upper, hmethod _ ?lower, ignores_method fun args => ?split,
    ignores_method fun args => ?contains, hmethod _ placeless_parseNumber, hmethod _ ?iter⟩
  case len | upper | lower | iter => simp
  all_goals split <;> simp

@[simp] theorem placeless_listIndex (l : ListId) (key : Value) (n : Nat) :
    Placeless (listIndex l key n) := by
  unfold listIndex
  split
  · split <;> simp
  · simp

/-- What a callback's result adds does not depend on places. -/
def Collector.IgnoresPlaces (collect : Collector) : Prop :=
  ∀ s item v, collect (Store.guised Frame.unplaced s) item v = collect s item v

/-- The calls that a method makes on a row. -/
theorem agrees_callback {f : Value} {row : Nat} {collect : Collector}
    {finish : List Value → World → Action} (hcollect : Collector.IgnoresPlaces collect)
    (hfinish : ∀ kept w w', w.unplaced = w'.unplaced → (finish kept w).Agrees (finish kept w')) (n : Nat) :
    ∀ (i : Nat) (kept : List Value) (w w' : World), w.unplaced = w'.unplaced →
      (callback f row collect finish n i kept w).Agrees (callback f row collect finish n i kept w') := by
  induction n with
  | zero => exact fun _ kept w w' h => hfinish kept.reverse w w' h
  | succ n ih =>
    intro i kept w w' h
    have hitem : w.store.rowGet row i = w'.store.rowGet row i :=
      World.reads_of_unplaced h (·.rowGet _ _) fun s => s.rowGet_guised row i
    unfold callback
    rw [hitem]
    refine .invoke h fun o o' v v' ho hv => ?_
    cases o with
    | error e =>
      cases o' with
      | ok => cases ho
      | error e' => exact .fail (Except.error.inj ho) hv
    | ok x =>
      cases o' with
      | error => cases ho
      | ok x' =>
        cases ho
        have hmore : collect v.store (w'.store.rowGet row i) x =
            collect v'.store (w'.store.rowGet row i) x :=
          World.reads_of_unplaced hv (collect · _ x) fun s => hcollect s _ x
        dsimp only
        rw [hmore]
        split
        · exact ih _ _ v v' hv
        · exact .fail rfl hv

theorem ignores_callbackMethod {name : String} {collect : Collector}
    {finish : Nat → List Value → World → Action} (hcollect : Collector.IgnoresPlaces collect)
    (hfinish : ∀ capacity kept w w', w.unplaced = w'.unplaced →
      (finish capacity kept w).Agrees (finish capacity kept w')) :
    (callbackMethod name collect finish).IgnoresPlaces := by
  refine ignores_methodWith fun args w w' h => ?_
  dsimp only
  split
  · rename_i l f
    have hwindow : w.store.window l = w'.store.window l :=
      World.reads_of_unplaced h (·.window _) fun s => s.window_guised l
    rw [hwindow]
    exact agrees_callback hcollect (hfinish _) _ 0 [] w w' h
  · exact .crash h

theorem ignores_keepIf : Collector.IgnoresPlaces keepIf := by
  intro s item v
  unfold keepIf
  simp

theorem ignores_lists : ∀ p ∈ listPrimitives, p.IgnoresPlaces := by
  have hfinish : ∀ capacity kept w w', w.unplaced = w'.unplaced →
      (finishList capacity kept w).Agrees (finishList capacity kept w') := by
    intro capacity kept w w' h
    have hlist : Placeless (changeGet fun s =>
        (some (Value.list (s.newListIn kept.toArray capacity).1), (s.newListIn kept.toArray capacity).2)) :=
      placeless_changeGet.mpr fun _ => rfl
    exact hlist.agrees h
  simp only [listPrimitives, List.forall_mem_cons, List.not_mem_nil, false_imp_iff,
    implies_true, and_true]
  refine ⟨ignores_method fun args => ?plus, ignores_method fun args => ?push,
    ignores_method fun args => ?pop, ignores_method fun args => ?len, ignores_method fun args => ?get,
    ignores_method fun args => ?set, ignores_method fun args => ?insert,
    ignores_method fun args => ?remove, ignores_method fun args => ?contains,
    ignores_method fun args => ?join, ?map, ?filter, ?each, ignores_method fun args => ?iter⟩
  case map => exact ignores_callbackMethod (fun _ _ _ => rfl) hfinish
  case filter => exact ignores_callbackMethod ignores_keepIf hfinish
  case each => exact ignores_callbackMethod (fun _ _ _ => rfl) fun _ _ _ _ h => .done h
  case pop =>
    split
    · refine (placeless_reads.mpr fun _ => rfl).bind fun size => ?_
      simp
    · simp
  case set | insert | remove =>
    split
    · refine Placeless.bind (placeless_reads.mpr fun _ => rfl) fun size =>
        .bind (placeless_listIndex _ _ _) fun i => ?_
      simp
    · simp
  all_goals split <;> simp

/-- The value under a key, if it is bound. -/
@[simp] theorem placeless_dictEntry (d : DictId) (key : Text) : Placeless (dictEntry d key) := by
  refine (placeless_reads.mpr fun _ => rfl).bind fun found => ?_
  split <;> simp

@[simp] theorem dictKeys_guised (s : Store) (d : DictId) :
    dictKeys (s.guised Frame.unplaced) d = dictKeys s d := rfl

theorem ignores_dicts : ∀ p ∈ dictPrimitives, p.IgnoresPlaces := by
  simp only [dictPrimitives, List.forall_mem_cons, List.not_mem_nil, false_imp_iff, implies_true,
    and_true]
  refine ⟨ignores_method fun args => ?get, ignores_method fun args => ?set,
    ignores_method fun args => ?has, ignores_method fun args => ?keys,
    ignores_method fun args => ?values, ignores_method fun args => ?len,
    ignores_method fun args => ?remove, ignores_method fun args => ?iter⟩
  case remove =>
    split
    · refine Placeless.bind (placeless_textArg _ _) fun key =>
        .bind (placeless_dictEntry _ _) fun v => ?_
      simp
    · simp
  all_goals split <;> simp

@[simp] theorem placeless_wrongField (field expected : String) (v : Value) :
    Placeless (wrongField field expected v) := by
  simp [wrongField]

theorem placeless_next (it : InstanceId) : Placeless (next it) := by
  refine (placeless_reads.mpr fun _ => rfl).bind fun items =>
    (placeless_reads.mpr fun _ => rfl).bind fun position => ?_
  split
  · split
    · refine (placeless_reads.mpr fun _ => rfl).bind fun size =>
        placeless_ite.mpr ⟨fun _ => placeless_newList _, fun _ => ?_⟩
      refine (placeless_change.mpr fun s => s.setField_guised ..).bind fun _ => ?_
      simp
    · simp
  · simp

theorem ignores_iterators : ∀ p ∈ iteratorPrimitives, p.IgnoresPlaces := by
  simp only [iteratorPrimitives, List.forall_mem_cons, List.not_mem_nil, false_imp_iff, implies_true,
    and_true]
  refine ignores_method fun args => ?_
  split
  · exact placeless_next _
  · simp

end Native

/-!
# The library
-/

namespace Library

/-- A library ignores places whose natives are the standard ones, under whatever names. -/
theorem ignoresPlaces_of_standard {l : Library} (h : l.behaviours = standard.behaviours) :
    l.IgnoresPlaces := by
  have hstandard : ∀ p ∈ standardPrimitives, p.IgnoresPlaces := by
    simp only [standardPrimitives, List.forall_mem_append]
    exact ⟨⟨⟨⟨⟨⟨Native.ignores_console, Native.ignores_types⟩, Native.ignores_numbers⟩,
      Native.ignores_strings⟩, Native.ignores_lists⟩, Native.ignores_dicts⟩, Native.ignores_iterators⟩
  intro info
  unfold behaviour
  cases hb : l.behaviours[info.behaviour]? with
  | none => exact fun _ _ _ h => .crash h
  | some b =>
    rw [h] at hb
    obtain ⟨p, hp, rfl⟩ := mem_standard (Array.mem_of_getElem? hb)
    exact hstandard p hp

end Library
end ScriptEngine
