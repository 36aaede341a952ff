import ScriptEngine.Proofs.Machine.Operands
import ScriptEngine.Proofs.Store.Dicts

/-!
# Dicts keep insertion order

A program changes dicts by the methods of dicts, by assignments, by writing dicts down and by
converting to them, and it copies and clones values all the time; a host may create and edit dicts
besides. Each of these deeds is carried out as the engine does it, and told in events. Main
statement: after any deeds every dict is what its own history says, and a copy or a clone and its
original go their own ways.
-/

namespace ScriptEngine

/-!
# Work that leaves something as it is
-/

section
variable {ε σ α β γ : Type}

/-- The state in which work ends or stops. -/
def finalState : EStateM.Result ε σ α → σ
  | .ok _ s => s
  | .error _ s => s

/-- Whatever comes of the work, this of the state is as it was. -/
def Still (view : σ → γ) (x : EStateM ε σ α) : Prop :=
  ∀ s, view (finalState (x s)) = view s

variable {view : σ → γ} {x : EStateM ε σ α} {k : α → EStateM ε σ β}

/-- Further work that leaves it as it is. -/
theorem Still.after (hk : ∀ a, Still view (k a)) (s : σ) :
    view (finalState ((x >>= k) s)) = view (finalState (x s)) := by
  show view (finalState (EStateM.bind x k s)) = _
  unfold EStateM.bind
  cases x s with
  | ok a s' => exact hk a s'
  | error e s' => rfl

@[simp] theorem Still.bind (hx : Still view x) (hk : ∀ a, Still view (k a)) :
    Still view (x >>= k) :=
  fun s => (Still.after hk s).trans (hx s)

@[simp] theorem Still.map {f : α → β} (hx : Still view x) : Still view (f <$> x) := by
  intro s
  have hs := hx s
  show view (finalState (EStateM.map f x s)) = _
  unfold EStateM.map
  generalize x s = r at hs
  cases r <;> exact hs

@[simp] theorem still_pure (a : α) : Still view (pure a : EStateM ε σ α) :=
  fun _ => rfl

@[simp] theorem still_throw (e : ε) : Still view (throw e : EStateM ε σ α) :=
  fun _ => rfl

end

/-- The dicts of a world. -/
def World.dicts (w : World) : Array (Table Value) :=
  w.store.dicts

/-- The dicts of the engine. -/
def Machine.dicts (m : Machine) : Array (Table Value) :=
  m.world.store.dicts

/-- The world that an action leaves. -/
def Action.world : Action → World
  | .done _ w | .fail _ w | .crash _ w | .invoke _ _ w _ | .depth w _ | .save w _ | .restore _ w _ => w

/-- A stack that holds these values and no others, the top first. -/
def OperandStack.holding (items : List Value) : OperandStack :=
  ⟨items.reverse.toArray, items.length⟩

theorem Machine.stacks_holding (m : Machine) (items : List Value) :
    (m.withStack (.holding items)).Stacks items where
  backed := by
    show items.length ≤ items.reverse.toArray.size
    rw [List.size_toArray, List.length_reverse]
  items := by
    show ((items.reverse.toArray).toList.take items.length).reverse = items
    rw [← List.length_reverse, List.take_length, List.reverse_reverse]

/-!
# Methods of dicts
-/

namespace Native

open Store (Event)

section
variable {α : Type}

@[simp] theorem still_reads (f : Store → α) : Still World.dicts (Effect.reads f) :=
  fun _ => rfl

@[simp] theorem still_raise (f : Failure) (message : Text) :
    Still World.dicts (Effect.raise f message : Effect α) :=
  fun _ => rfl

@[simp] theorem still_newList (items : Array Value) : Still World.dicts (Effect.newList items) :=
  fun _ => rfl

@[simp] theorem still_newIterator (items : Value) : Still World.dicts (newIterator items) :=
  fun _ => rfl

@[simp] theorem still_impossible : Still World.dicts (Effect.impossible : Effect α) :=
  fun _ => rfl

@[simp] theorem still_textArg (name : String) (v : Value) :
    Still World.dicts (Effect.textArg name v) := by
  unfold Effect.textArg
  split
  · exact still_pure _
  · exact (still_reads _).bind fun t => still_raise _ _

@[simp] theorem still_dictEntry (d : DictId) (key : Text) : Still World.dicts (dictEntry d key) := by
  refine (still_reads _).bind fun found => ?_
  split <;> simp

end

section
variable {name : String} {arity : Nat} {f : List Value → Effect Value}

theorem ofEffect_eq (f : List Value → Effect Value) (args : List Value) (w : World) :
    Behaviour.ofEffect f args w =
      match f args w with
      | .ok v w' => .done (some v) w'
      | .error (.fault e) w' => .fail e w'
      | .error (.crash e) w' => .crash e w' := by
  show Action.ofEffect (f args >>= fun v => pure (some v)) w = _
  have hbind : (f args >>= fun v => pure (some v)) w =
    EStateM.bind (f args) (fun v => pure (some v)) w := rfl
  unfold Action.ofEffect
  rw [hbind]
  unfold EStateM.bind
  cases f args w with
  | ok v w' => rfl
  | error e w' => cases e <;> rfl

theorem world_ofEffect (f : List Value → Effect Value) (args : List Value) (w : World) :
    (Behaviour.ofEffect f args w).world = finalState (f args w) := by
  rw [ofEffect_eq]
  cases f args w with
  | ok v w' => rfl
  | error e w' => cases e <;> rfl

/-- A method of dicts lets every dict in. -/
theorem method_eq (d : DictId) (rest : List Value) (w : World) :
    (Primitive.method "Dict" name arity f).behaviour (.dict d :: rest) w =
      match f (.dict d :: rest) w with
      | .ok v w' => .done (some v) w'
      | .error (.fault e) w' => .fail e w'
      | .error (.crash e) w' => .crash e w' :=
  ofEffect_eq f (.dict d :: rest) w

theorem world_method (d : DictId) (rest : List Value) (w : World) :
    ((Primitive.method "Dict" name arity f).behaviour (.dict d :: rest) w).world =
      finalState (f (.dict d :: rest) w) :=
  world_ofEffect f (.dict d :: rest) w

/-- A method that leaves the dicts does so when it refuses its receiver, too. -/
theorem dicts_method {args : List Value} {w : World}
    (hf : (finalState (f args w)).dicts = w.dicts) :
    ((Primitive.method "Dict" name arity f).behaviour args w).world.dicts = w.dicts := by
  show (Primitive.guarded _ "Dict" (Behaviour.ofEffect f) args w).world.dicts = w.dicts
  unfold Primitive.guarded
  cases args with
  | nil => rw [world_ofEffect, hf]
  | cons receiver rest =>
    dsimp only
    split
    · rw [world_ofEffect, hf]
    · rfl

end

theorem key_method (name : String) (arity : Nat) (f : List Value → Effect Value) :
    (Primitive.method "Dict" name arity f).key = Key.join name "Dict" :=
  rfl

theorem dictEntry_eq (d : DictId) (key : Text) (w : World) :
    dictEntry d key w =
      match (w.store.dict d).get? key with
      | some v => .ok v w
      | none => .error (.fault (.raised .notFound ("key " ++ key.quoted ++ " not found in Dict"))) w := by
  show (match (w.store.dict d).get? key with | some v => _ | none => _ : Effect Value) w = _
  cases (w.store.dict d).get? key <;> rfl

/-- What a method of dicts does to dicts. -/
def methodEvents (key : Text) : List Value → List Event
  | [.dict d, .text k, v] => if key = Key.join "set" "Dict" then [.edit d (.set k v)] else []
  | [.dict d, .text k] => if key = Key.join "remove" "Dict" then [.edit d (.delete k)] else []
  | _ => []

theorem methodEvents_other {key : Text} (hset : key ≠ Key.join "set" "Dict")
    (hremove : key ≠ Key.join "remove" "Dict") (args : List Value) : methodEvents key args = [] := by
  unfold methodEvents
  split
  · exact if_neg hset
  · exact if_neg hremove
  · rfl

/-- A method that reads. -/
theorem events_reading {name : String} {arity : Nat} {f : List Value → Effect Value}
    (hset : Key.join name "Dict" ≠ Key.join "set" "Dict")
    (hremove : Key.join name "Dict" ≠ Key.join "remove" "Dict")
    (hf : ∀ args, Still World.dicts (f args)) (args : List Value) (w : World) :
    ((Primitive.method "Dict" name arity f).behaviour args w).world.dicts =
      (methodEvents (Primitive.method "Dict" name arity f).key args).foldl Event.act w.dicts := by
  rw [key_method, methodEvents_other hset hremove, dicts_method (hf args w)]
  rfl

/-- Deleting a key that is not there is what the method for it does without one. -/
theorem modify_erase_absent {dicts : Array (Table Value)} {d : DictId} {key : Text}
    (h : (dicts[d]?.getD .empty).get? key = none) :
    dicts.modify d (·.erase key) = dicts := by
  refine Array.ext_getElem? fun i => ?_
  rw [Array.getElem?_modify]
  split
  · rename_i hi
    subst hi
    cases hd : dicts[d]? with
    | none => rfl
    | some t =>
      rw [hd] at h
      exact congrArg some (Table.erase_eq_self h)
  · rfl

theorem events_method : ∀ p ∈ dictPrimitives, ∀ args w,
    (p.behaviour args w).world.dicts = (methodEvents p.key args).foldl Event.act w.dicts := by
  simp only [dictPrimitives, List.forall_mem_cons, List.not_mem_nil, false_imp_iff, implies_true,
    and_true]
  refine ⟨events_reading ?_ ?_ fun args => ?get, fun args w => ?set,
    events_reading ?_ ?_ fun args => ?has, events_reading ?_ ?_ fun args => ?keys,
    events_reading ?_ ?_ fun args => ?values, events_reading ?_ ?_ fun args => ?len,
    fun args w => ?remove, events_reading ?_ ?_ fun args => ?iter⟩
  case get | has | keys | values | len | iter => split <;> simp
  case set =>
    unfold methodEvents
    split
    · rename_i d k v
      rw [key_method, if_pos rfl, world_method]
      rfl
    · rw [key_method, if_neg (by decide)]
      exact dicts_method rfl
    · rename_i hset hremove
      refine dicts_method ?_
      split
      · rename_i d k v
        cases k with
        | text k => exact absurd rfl (hset d k v)
        | _ => rfl
      · rfl
  case remove =>
    unfold methodEvents
    split
    · rw [key_method, if_neg (by decide)]
      exact dicts_method rfl
    · rename_i d k
      rw [key_method, if_pos rfl, world_method]
      show (finalState (EStateM.bind (dictEntry d k) (fun v =>
        Effect.change (fun s => s.modifyDict d (·.erase k)) >>= fun _ => pure v) w)).dicts =
          w.dicts.modify d (·.erase k)
      unfold EStateM.bind
      rw [dictEntry_eq]
      cases hfound : (w.store.dict d).get? k with
      | none => exact (modify_erase_absent hfound).symm
      | some v => rfl
    · rename_i hset hremove
      refine dicts_method ?_
      split
      · rename_i d k
        cases k with
        | text k => exact absurd rfl (hremove d k)
        | _ => rfl
      · rfl
  all_goals decide

/-- What `get` answers. -/
theorem get_answers : ∀ p ∈ dictPrimitives, p.key = Key.join "get" "Dict" → ∀ d k (w : World),
    p.behaviour [.dict d, .text k] w =
      match (w.store.dict d).get? k with
      | some v => .done (some v) w
      | none => .fail (.raised .notFound ("key " ++ k.quoted ++ " not found in Dict")) w := by
  simp only [dictPrimitives, List.forall_mem_cons, List.not_mem_nil, false_imp_iff, implies_true,
    and_true]
  refine ⟨fun _ d k w => ?_, fun h => absurd h ?_, fun h => absurd h ?_, fun h => absurd h ?_,
    fun h => absurd h ?_, fun h => absurd h ?_, fun h => absurd h ?_, fun h => absurd h ?_⟩
  · rw [method_eq]
    show (match dictEntry d k w with
      | .ok v w' => Action.done (some v) w'
      | .error (.fault e) w' => .fail e w'
      | .error (.crash e) w' => .crash e w') = _
    rw [dictEntry_eq]
    cases (w.store.dict d).get? k <;> rfl
  all_goals decide

/-- What `keys` answers. -/
theorem keys_answers : ∀ p ∈ dictPrimitives, p.key = Key.join "keys" "Dict" → ∀ d (w : World),
    ∃ l w', p.behaviour [.dict d] w = .done (some (.list l)) w' ∧
      w'.store.items l = ((w.store.dict d).keys.map Value.text).toArray := by
  simp only [dictPrimitives, List.forall_mem_cons, List.not_mem_nil, false_imp_iff, implies_true,
    and_true]
  refine ⟨fun h => absurd h ?_, fun h => absurd h ?_, fun h => absurd h ?_, fun _ d w => ?_,
    fun h => absurd h ?_, fun h => absurd h ?_, fun h => absurd h ?_, fun h => absurd h ?_⟩
  case refine_4 => exact ⟨_, _, rfl, Store.items_newListIn⟩
  all_goals decide

/-!
# Conversion to dicts
-/

/-- What converting a value to a dict does to dicts. -/
def convertEvents (s : Store) : Value → List Event
  | .dict d => [.copy d]
  | .inst i =>
    if s.typeName (.inst i) = "Dict" then []
    else Event.made s.dicts.size ((s.instanceType i).fields.map fun f => (f, (s.field? i f).getD .null))
  | _ => []

theorem events_convert (v : Value) (w : World) :
    (finalState (convert v "Dict" w)).dicts = (convertEvents w.store v).foldl Event.act w.dicts := by
  cases v with
  | inst i =>
    have hconvert : convert (.inst i) "Dict" w =
      (if w.store.typeName (.inst i) == "Dict" then copyValue (.inst i) else fieldDict i : Effect Value) w := rfl
    by_cases hname : w.store.typeName (.inst i) = "Dict"
    · have hevents : convertEvents w.store (.inst i) = [] := if_pos hname
      rw [hconvert, if_pos (beq_iff_eq.mpr hname), hevents]
      exact Store.dicts_copy w.store (.inst i)
    · have hevents : convertEvents w.store (.inst i) = Event.made w.store.dicts.size
          ((w.store.instanceType i).fields.map fun f => (f, (w.store.field? i f).getD .null)) :=
        if_neg hname
      rw [hconvert, if_neg fun h => hname (beq_iff_eq.mp h), hevents]
      exact (Store.acts_made _).symm
  | _ => rfl

end Native

/-!
# Assignments and dicts that are written down
-/

namespace Exec

open Store (Event)

section
variable {α β : Type}

@[simp] theorem still_reads (f : Machine → α) : Still Machine.dicts (reads f) :=
  fun _ => rfl

@[simp] theorem still_raise (f : Failure) (message : Text) :
    Still Machine.dicts (raise f message : Exec α) :=
  fun _ => rfl

@[simp] theorem still_crash (message : Text) : Still Machine.dicts (crash message : Exec α) :=
  fun _ => rfl

@[simp] theorem still_typeName (v : Value) : Still Machine.dicts (typeName v) :=
  fun _ => rfl

@[simp] theorem still_push (v : Value) : Still Machine.dicts (push v) :=
  fun _ => rfl

@[simp] theorem still_onStore {f : Store → α × Store} (h : ∀ s, (f s).2.dicts = s.dicts) :
    Still Machine.dicts (onStore f) :=
  fun m => h m.world.store

theorem Like.dicts {rest : List Value} {r r' : EStateM.Result Stop Machine α} (h : Like rest r r') :
    (finalState r).dicts = (finalState r').dicts := by
  cases h <;> rfl

/-- Pushing its result is the last that an instruction does. -/
theorem dicts_result (x : Exec Value) (m : Machine) :
    (finalState (result x m)).dicts = (finalState (x m)).dicts :=
  Still.after (fun v => (still_push v).bind fun _ => still_pure _) m

end

/-- What assigning does to dicts: the value is copied, and the copy is set into a dict if the target
is one. -/
def assignEvents (s : Store) (name target value : Value) : List Event :=
  Store.copied value ++
    match target, name with
    | .dict d, .text k => [.edit d (.set k (s.copy value).1)]
    | _, _ => []

theorem still_nameClosure (v : Value) (name : Text) : Still Machine.dicts (nameClosure v name) := by
  unfold nameClosure
  split
  · exact still_onStore fun _ => rfl
  · exact still_pure _

theorem still_bindName (scope : Scope) (name : Text) (v : Value) :
    Still Machine.dicts (bindName scope name v) := by
  refine (still_reads _).bind fun frame => ?_
  cases frame with
  | none => exact still_crash _
  | some f =>
    refine still_onStore fun s => ?_
    cases scope with
    | inner => rfl
    | nearest =>
      show (s.setNearest f name v).dicts = s.dicts
      unfold Store.setNearest
      split <;> rfl
    | outer =>
      show (s.setOuter f name v).dicts = s.dicts
      unfold Store.setOuter
      split
      · rfl
      · split
        · rfl
        · split <;> rfl

/-- Writing into anything but a dict, or under a key that is no text, leaves the dicts. -/
theorem still_setMember {target key value : Value}
    (h : ∀ d k, target = .dict d → key ≠ .text k) : Still Machine.dicts (setMember target key value) := by
  unfold setMember
  split
  · rename_i d
    split
    · rename_i k
      exact absurd rfl (h d k rfl)
    · simp
  · refine (still_reads _).bind fun size => ?_
    split
    · exact still_onStore fun _ => rfl
    · simp
  · refine (still_typeName _).bind fun t => ?_
    split
    · refine (still_reads _).bind fun found => ?_
      split
      · exact still_onStore fun _ => rfl
      · simp
    · simp
  · simp

theorem events_place (scope : Scope) (name target value : Value) (m : Machine) :
    (finalState (place scope name target value m)).dicts =
      (assignEvents m.world.store name target value).foldl Event.act m.dicts := by
  unfold place assignEvents
  rw [bind_of_ok (copy_eq m value), List.foldl_append]
  have hcopy : (m.withStore (m.world.store.copy value).2).dicts =
    (Store.copied value).foldl Event.act m.dicts := Store.dicts_copy m.world.store value
  rw [← hcopy]
  generalize m.withStore (m.world.store.copy value).2 = m'
  generalize (m.world.store.copy value).1 = v
  have hstill : ∀ {x : Exec Unit}, Still Machine.dicts x →
      (finalState ((x >>= fun _ => pure v : Exec Value) m')).dicts = m'.dicts :=
    fun hx => hx.bind (fun _ => still_pure v) m'
  cases target with
  | empty =>
    cases name with
    | text key =>
      exact (still_nameClosure v key).bind
        (fun _ => (still_bindName scope key v).bind fun _ => still_pure v) m'
    | _ => rfl
  | dict d =>
    cases name with
    | text k => rfl
    | _ => exact hstill (still_setMember fun _ _ _ h => by cases h)
  | _ => exact hstill (still_setMember fun _ _ h => by cases h)

/-- What writing a dict down does to dicts: the values are copied in order, and then the pairs are set
into a new dict. Where a key is no text, nothing more is done. -/
def literalEvents (s : Store) : List (Value × Value) → List (Text × Value) → List Event
  | [], done => Event.made s.dicts.size done
  | (key, v) :: rest, done =>
    Store.copied v ++
      match key with
      | .text k => literalEvents (s.copy v).2 rest (done ++ [(k, (s.copy v).1)])
      | _ => []

theorem events_dictOf (pairs : List (Value × Value)) (m : Machine) :
    (finalState (dictOf pairs m)).dicts =
      (literalEvents m.world.store pairs []).foldl Event.act m.dicts := by
  have hbuilt : ∀ (pairs : List (Value × Value)) (done : List (Text × Value)) (m : Machine),
      (finalState ((copyEntries pairs (Table.ofList done) >>= fun entries => onStore fun s =>
        (Value.dict (s.newDict entries).1, (s.newDict entries).2) : Exec Value) m)).dicts =
          (literalEvents m.world.store pairs done).foldl Event.act m.dicts := by
    intro pairs
    induction pairs with
    | nil => exact fun done m => (Store.acts_made done).symm
    | cons pair rest ih =>
      obtain ⟨key, v⟩ := pair
      intro done m
      have hcopy : (m.withStore (m.world.store.copy v).2).dicts =
        (Store.copied v).foldl Event.act m.dicts := Store.dicts_copy m.world.store v
      unfold copyEntries literalEvents
      rw [bind_assoc, bind_of_ok (copy_eq m v), List.foldl_append, ← hcopy]
      cases key with
      | text k =>
        have hdone : (Table.ofList done).insert k (m.world.store.copy v).1 =
            Table.ofList (done ++ [(k, (m.world.store.copy v).1)]) := by
          unfold Table.ofList Table.insertAll
          rw [List.foldl_append]
          rfl
        dsimp only
        rw [hdone]
        exact ih _ _
      | _ => rfl
  exact hbuilt pairs [] m

end Exec

/-!
# Deeds
-/

/-- Something that is done to dicts or happens beside them. -/
inductive Deed where
  | create
  | set (d : DictId) (key : Text) (v : Value)
  | delete (d : DictId) (key : Text)
  | copy (v : Value)
  | clone (v : Value)
  /-- A method of dicts is called, with whatever arguments. -/
  | method (p : Primitive) (hp : p ∈ Native.dictPrimitives) (args : List Value)
  /-- A value is converted to a dict. -/
  | convert (v : Value)
  /-- A dict is written down, with the keys and values that stand on the stack. -/
  | literal (pairs : List (Value × Value)) (h : pairs.length ≤ Slot.limit)
  /-- The instruction that assigns, with its operands on the stack. -/
  | assign (scope : Scope) (name target value : Value)
  /-- Anything that leaves all dicts. -/
  | other (work : Machine → Machine) (h : ∀ m, (work m).dicts = m.dicts)

namespace Deed

open Store (Event)

/-- The engine after a deed. -/
def run (m : Machine) : Deed → Machine
  | create => m.withStore (m.world.store.newDict .empty).2
  | set d key v => m.withStore (m.world.store.modifyDict d (·.insert key v))
  | delete d key => m.withStore (m.world.store.modifyDict d (·.erase key))
  | copy v => m.withStore (m.world.store.copy v).2
  | clone v => m.withStore (m.world.store.clone v).2
  | method p _ args => { m with world := (p.behaviour args m.world).world }
  | convert v => { m with world := finalState (Native.convert v "Dict" m.world) }
  | literal pairs _ =>
    finalState (Exec.step .buildDict (m.withStack
      (.holding (.number (Number.ofNat pairs.length) :: Exec.flatten pairs))))
  | assign scope name target value =>
    finalState (Exec.step (.assign scope) (m.withStack (.holding [name, target, value])))
  | other work _ => work m

/-- What a deed does to dicts. -/
def events (m : Machine) : Deed → List Event
  | create => [.create]
  | set d key v => [.edit d (.set key v)]
  | delete d key => [.edit d (.delete key)]
  | copy v => Store.copied v
  | clone v => m.world.store.cloned v
  | method p _ args => Native.methodEvents p.key args
  | convert v => Native.convertEvents m.world.store v
  | literal pairs _ => Exec.literalEvents m.world.store pairs []
  | assign _ name target value => Exec.assignEvents m.world.store name target value
  | other _ _ => []

/-- The dict that a deed edits, of those that are there before it. -/
def target? : Deed → Option DictId
  | set d _ _ | delete d _ | assign _ _ (.dict d) _ => some d
  | method p _ (.dict d :: _) =>
    if p.key = Key.join "set" "Dict" ∨ p.key = Key.join "remove" "Dict" then some d else none
  | _ => none

variable {m : Machine} {d : DictId}

/-- A deed does to dicts what its events say. -/
theorem dicts_run (hm : m.world.store.Distinct) (x : Deed) :
    (x.run m).dicts = (x.events m).foldl Event.act m.dicts := by
  cases x with
  | create | set | delete => rfl
  | copy v => exact Store.dicts_copy m.world.store v
  | clone v => exact Store.dicts_clone hm v
  | method p hp args => exact Native.events_method p hp args m.world
  | convert v => exact Native.events_convert v m.world
  | literal pairs h =>
    have hstacks := m.stacks_holding (.number (Number.ofNat pairs.length) :: Exec.flatten pairs)
    rw [← List.append_nil (Exec.flatten pairs)] at hstacks
    have hlike := Exec.step_buildDict h rfl hstacks
    rw [List.append_nil] at hlike
    show Machine.dicts (finalState _) = _
    rw [hlike.dicts, Exec.dicts_result, Exec.events_dictOf]
    rfl
  | assign scope name target value =>
    have hstep : Exec.step (.assign scope) (m.withStack (.holding [name, target, value])) = _ :=
      Exec.step_assign (m.stacks_holding [name, target, value])
    show Machine.dicts (finalState _) = _
    rw [hstep, Exec.dicts_result, Exec.events_place]
    rfl
  | other work h => exact h m

theorem spares_literal (pairs : List (Value × Value)) (s : Store) (done : List (Text × Value))
    (hd : d < s.dicts.size) : ∀ ev ∈ Exec.literalEvents s pairs done, ev.Spares d := by
  induction pairs generalizing s done with
  | nil => exact Store.spares_made hd
  | cons pair rest ih =>
    obtain ⟨key, v⟩ := pair
    intro ev hev
    rcases List.mem_append.mp hev with hev | hev
    · exact Store.spares_copied v ev hev
    · cases key with
      | text k =>
        have hcopy : d < (s.copy v).2.dicts.size := by
          rw [Store.dicts_copy]
          exact (Store.getElem?_of_spares (Store.spares_copied v) hd).2
        exact ih _ _ hcopy ev hev
      | _ => cases hev

/-- A deed edits no dict but its target. -/
theorem spares_events (x : Deed) (hd : d < m.dicts.size) (hx : x.target? ≠ some d) :
    ∀ ev ∈ x.events m, ev.Spares d := by
  have hedit : ∀ {d' : DictId} {e : Edit Value}, d' ≠ d → (Event.edit d' e).Spares d := by
    intro d' e hne e' heq
    cases heq
    exact hne rfl
  cases x with
  | create => exact List.forall_mem_singleton.mpr fun e heq => by cases heq
  | set d' key v =>
    exact List.forall_mem_singleton.mpr (hedit fun heq => hx (congrArg some heq))
  | delete d' key =>
    exact List.forall_mem_singleton.mpr (hedit fun heq => hx (congrArg some heq))
  | copy v => exact Store.spares_copied v
  | clone v => exact Store.spares_madeAll hd
  | method p hp args =>
    show ∀ ev ∈ Native.methodEvents p.key args, ev.Spares d
    unfold Native.methodEvents
    split
    · rename_i d' k v
      split
      · rename_i hkey
        refine List.forall_mem_singleton.mpr (hedit fun heq => hx ?_)
        exact (if_pos (Or.inl hkey)).trans (congrArg some heq)
      · exact fun ev hev => absurd hev List.not_mem_nil
    · rename_i d' k
      split
      · rename_i hkey
        refine List.forall_mem_singleton.mpr (hedit fun heq => hx ?_)
        exact (if_pos (Or.inr hkey)).trans (congrArg some heq)
      · exact fun ev hev => absurd hev List.not_mem_nil
    · exact fun ev hev => absurd hev List.not_mem_nil
  | convert v =>
    show ∀ ev ∈ Native.convertEvents m.world.store v, ev.Spares d
    unfold Native.convertEvents
    split
    · exact List.forall_mem_singleton.mpr fun e heq => by cases heq
    · split
      · exact fun ev hev => absurd hev List.not_mem_nil
      · exact Store.spares_made hd
    · exact fun ev hev => absurd hev List.not_mem_nil
  | literal pairs h => exact spares_literal pairs m.world.store [] hd
  | assign scope name target value =>
    refine List.forall_mem_append.mpr ⟨Store.spares_copied value, ?_⟩
    split
    · exact List.forall_mem_singleton.mpr (hedit fun heq => hx (congrArg some heq))
    · exact fun ev hev => absurd hev List.not_mem_nil
  | other work h => exact fun ev hev => absurd hev List.not_mem_nil

end Deed

namespace Machine

open Store (Event)

/-- The engine after deeds. -/
def doing (m : Machine) (xs : List Deed) : Machine :=
  xs.foldl Deed.run m

/-- The histories of the dicts after deeds. -/
def histories (m : Machine) : Array (List (Edit Value)) → List Deed → Array (List (Edit Value))
  | known, [] => known
  | known, x :: xs => (x.run m).histories ((x.events m).foldl Event.note known) xs

variable {m : Machine} {known : Array (List (Edit Value))} {d : DictId}

/-- Dicts that have a history have no key twice. -/
theorem distinct_of_known (h : m.dicts = known.map Table.after) : m.world.store.Distinct := by
  intro t ht
  have ht : t ∈ known.map Table.after := h ▸ ht
  obtain ⟨history, -, rfl⟩ := Array.mem_map.mp ht
  exact (Table.after_follows history).nodup

/-- One deed. -/
theorem dicts_run (h : m.dicts = known.map Table.after) (x : Deed) :
    (x.run m).dicts = ((x.events m).foldl Event.note known).map Table.after := by
  rw [Deed.dicts_run (distinct_of_known h), h, Store.acts_map_after]

/-- The dicts are at any time those that their histories lead to. -/
theorem dicts_doing (h : m.dicts = known.map Table.after) (xs : List Deed) :
    (m.doing xs).dicts = (m.histories known xs).map Table.after := by
  induction xs generalizing m known with
  | nil => exact h
  | cons x xs ih => exact ih (dicts_run h x)

/-- A dict that no deed edits stays as it is. -/
theorem dict_doing (h : m.dicts = known.map Table.after) {xs : List Deed} (hd : d < m.dicts.size)
    (hxs : ∀ x ∈ xs, x.target? ≠ some d) :
    (m.doing xs).world.store.dict d = m.world.store.dict d := by
  induction xs generalizing m known with
  | nil => rfl
  | cons x xs ih =>
    have hspares := x.spares_events hd (hxs x List.mem_cons_self)
    obtain ⟨hsame, hlt⟩ := Store.getElem?_of_spares hspares hd
    rw [← Deed.dicts_run (distinct_of_known h)] at hsame hlt
    have hdict : (x.run m).world.store.dict d = m.world.store.dict d :=
      congrArg (fun t => Option.getD t Table.empty) hsame
    exact (ih (dicts_run h x) hlt fun y hy => hxs y (List.mem_cons_of_mem x hy)).trans hdict

end Machine

/-!
# What is seen of a dict
-/

namespace Store

variable {s : Store} {d : DictId} {history : List (Edit Value)}

/-- The text of a dict with a history: its keys in their order, each with the value that was last
set. -/
def dictText (s : Store) (d : DictId) (history : List (Edit Value)) : Text :=
  "\x7b" ++ Text.join ", " ((s.dict d).keys.map fun k =>
    k.quoted ++ ": " ++ s.showWithin s.containers [.dict d] true ((Edit.standing history k).getD .null))
    ++ "\x7d"

/-- The dict is what its history says, for everyone who looks at it. -/
structure Tells (s : Store) (d : DictId) (history : List (Edit Value)) : Prop where
  follows : (s.dict d).Follows history
  domain : ∀ k, k ∈ (s.dict d).keys ↔ ((s.dict d).get? k).isSome
  parts : (s.dict d).parts = .after history
  values : (s.dict d).values.map some = (s.dict d).keys.map (Edit.standing history)
  display : s.display (.dict d) = s.dictText d history
  repr : s.repr (.dict d) = s.dictText d history
  get : ∀ p ∈ Native.dictPrimitives, p.key = Key.join "get" "Dict" → ∀ (w : World) k, w.store = s →
    p.behaviour [.dict d, .text k] w =
      match Edit.standing history k with
      | some v => .done (some v) w
      | none => .fail (.raised .notFound ("key " ++ k.quoted ++ " not found in Dict")) w
  keys : ∀ p ∈ Native.dictPrimitives, p.key = Key.join "keys" "Dict" → ∀ w : World, w.store = s →
    ∃ l w', p.behaviour [.dict d] w = .done (some (.list l)) w' ∧
      w'.store.items l = ((s.dict d).keys.map Value.text).toArray

theorem show_dict (h : (s.dict d).Follows history) (quote : Bool) :
    s.showWithin (s.containers + 1) [] quote (.dict d) = s.dictText d history := by
  have hshow : s.showWithin (s.containers + 1) [] quote (.dict d) =
      "\x7b" ++ Text.join ", " ((s.layout (.dict d)).parts.map fun part =>
        part.1 ++ s.showWithin s.containers [.dict d] true part.2) ++ "\x7d" := rfl
  have hparts := Table.map_entries h.nodup fun k v =>
    k.quoted ++ ": " ++ s.showWithin s.containers [.dict d] true (v.getD .null)
  simp only [h.value] at hparts
  unfold dictText
  rw [hshow, ← hparts]
  simp only [layout, List.map_map]
  rfl

theorem Tells.of_after (h : s.dict d = Table.after history) : s.Tells d history := by
  have hfollows : (s.dict d).Follows history := h ▸ Table.after_follows history
  refine ⟨hfollows, Table.mem_keys_iff _, ?_, ?_, ?_, ?_, ?_, ?_⟩
  · rw [h]
    exact Table.parts_after history
  · have hvalues := Table.map_entries hfollows.nodup fun _ v => v
    rw [funext hfollows.value] at hvalues
    exact (List.map_map ..).trans hvalues
  · rw [display_eq, show_dict hfollows]
  · rw [repr_eq, show_dict hfollows]
  · intro p hp hkey w k hw
    subst hw
    rw [Native.get_answers p hp hkey, hfollows.value k]
  · intro p hp hkey w hw
    subst hw
    exact Native.keys_answers p hp hkey d w

end Store

/-!
# Insertion order
-/

namespace Machine

/-- From here on the dicts `d` and `c` go their own ways: whatever is done, a dict stays as it is until
it is edited itself. -/
structure Parted (m : Machine) (d c : DictId) : Prop where
  ne : c ≠ d
  original : ∀ ys : List Deed, (∀ y ∈ ys, y.target? ≠ some d) →
    (m.doing ys).world.store.dict d = m.world.store.dict d
  copy : ∀ ys : List Deed, (∀ y ∈ ys, y.target? ≠ some c) →
    (m.doing ys).world.store.dict c = m.world.store.dict c

theorem parted {m : Machine} {known : Array (List (Edit Value))} {d c : DictId}
    (h : m.dicts = known.map Table.after) (hdc : d < c) (hc : c < m.dicts.size) : m.Parted d c where
  ne := Nat.ne_of_gt hdc
  original _ hys := dict_doing h (Nat.lt_trans hdc hc) hys
  copy _ hys := dict_doing h hc hys

/-- From dicts that are all empty, through any deeds: every dict is what its own history says, with
its keys in the order in which they were first set since they were last deleted. A copy is a new
dict with the same bindings, a clone is a new dict with the same keys in the same order; both leave
the original as it is, and from then on neither of the two dicts changes when the other is edited. -/
theorem dicts_keep_insertion_order (m : Machine) (hm : ∀ t ∈ m.dicts, t = Table.empty)
    (xs : List Deed) (d : DictId) (hd : d < (m.doing xs).dicts.size) :
    let m' := m.doing xs
    let s := m'.world.store
    let c := m'.dicts.size
    s.Tells d ((m.histories (m.dicts.map fun _ => []) xs)[d]?.getD []) ∧
      ((s.copy (.dict d)).1 = .dict c ∧
        (m'.doing [.copy (.dict d)]).world.store.dict d = s.dict d ∧
        (m'.doing [.copy (.dict d)]).world.store.dict c = s.dict d ∧
        (m'.doing [.copy (.dict d)]).Parted d c) ∧
      ((s.clone (.dict d)).1 = .dict c ∧
        (m'.doing [.clone (.dict d)]).world.store.dict d = s.dict d ∧
        ((m'.doing [.clone (.dict d)]).world.store.dict c).keys = (s.dict d).keys ∧
        (m'.doing [.clone (.dict d)]).Parted d c) := by
  have hstart : m.dicts = (m.dicts.map fun _ => ([] : List (Edit Value))).map Table.after := by
    rw [Array.map_map]
    conv => lhs; rw [← Array.map_id m.dicts]
    exact Array.map_congr_left fun t ht => hm t ht
  have hknown := dicts_doing hstart xs
  dsimp only
  generalize m.histories (m.dicts.map fun _ => []) xs = known at hknown
  generalize m.doing xs = m' at hd hknown
  have hdict : m'.world.store.dict d = Table.after (known[d]?.getD []) := by
    show (m'.dicts[d]?).getD Table.empty = _
    rw [hknown, Array.getElem?_map]
    cases known[d]? <;> rfl
  have hsame : ∀ x : Deed, x.target? ≠ some d →
      (m'.doing [x]).world.store.dict d = m'.world.store.dict d :=
    fun x hx => dict_doing hknown hd (List.forall_mem_singleton.mpr hx)
  obtain ⟨hvalue, hsize, hkeys⟩ := m'.world.store.clone_dict d
  exact ⟨.of_after hdict,
    ⟨rfl, hsame (.copy (.dict d)) nofun, m'.world.store.dict_copy_new d,
      parted (dicts_run hknown (.copy (.dict d))) hd (Store.size_lt_push _ _)⟩,
    ⟨hvalue, hsame (.clone (.dict d)) nofun, hkeys,
      parted (dicts_run hknown (.clone (.dict d))) hd hsize⟩⟩

/-- A dict is made and two keys are set, the first one twice; it is copied, and in the original the
first key is deleted and set again. -/
def reinsertion : List Deed :=
  [.create, .set 0 "z" (.boolean true), .set 0 "a" .null, .set 0 "z" (.boolean false),
    .copy (.dict 0), .delete 0 "z", .set 0 "z" .null]

/-- The key went to the end in the original, and stayed in front in the copy. -/
theorem dicts_keep_insertion_order_reinserted :
    let m := Machine.new ⟨.empty, default, default⟩ default default
    let s := (m.doing reinsertion).world.store
    (s.dict 0).keys = ["a", "z"] ∧ (s.dict 1).keys = ["z", "a"] ∧
      s.Tells 0 ((m.histories (m.dicts.map fun _ => []) reinsertion)[0]?.getD []) ∧
      s.Tells 1 ((m.histories (m.dicts.map fun _ => []) reinsertion)[1]?.getD []) := by
  let m := Machine.new ⟨.empty, default, default⟩ default default
  have hm : ∀ t ∈ m.dicts, t = Table.empty := fun t ht => absurd ht (Array.not_mem_empty t)
  exact ⟨by decide, by decide, (dicts_keep_insertion_order m hm reinsertion 0 (by decide)).1,
    (dicts_keep_insertion_order m hm reinsertion 1 (by decide)).1⟩

end Machine
end ScriptEngine
