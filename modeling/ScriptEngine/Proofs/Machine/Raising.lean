import ScriptEngine.Proofs.Machine.Effects

/-!
# Faults of instructions

An instruction that fails only raises its failure: it is the engine that gives the fault a place, so
there is one place in which this is done.
-/

namespace ScriptEngine

/-- The fault was raised and not located yet. -/
def Fault.Raised : Fault → Prop
  | .raised .. => True
  | _ => False

namespace Exec

variable {α β : Type}

/-- Every fault of the computation is raised without a place. -/
def Raises (x : Exec α) : Prop :=
  ∀ m f m', x m = .error (.fault f) m' → f.Raised

theorem raises_of_ok {x : Exec α} (h : ∀ m, ∃ a m', x m = .ok a m') : Raises x := by
  intro m f m' hx
  obtain ⟨a, m₁, hok⟩ := h m
  rw [hok] at hx
  cases hx

theorem raises_pure (a : α) : Raises (Pure.pure a) :=
  raises_of_ok fun m => ⟨a, m, rfl⟩

theorem raises_reads (f : Machine → α) : Raises (reads f) :=
  raises_of_ok fun m => ⟨f m, m, rfl⟩

theorem raises_modify (f : Machine → Machine) : Raises (modify f) :=
  raises_of_ok fun m => ⟨(), f m, rfl⟩

theorem raises_onStore (f : Store → α × Store) : Raises (onStore f) :=
  raises_of_ok fun m => ⟨_, m.withStore (f m.world.store).2, rfl⟩

theorem raises_raise (f : Failure) (message : Text) : Raises (raise f message : Exec α) := by
  rintro m _ _ ⟨⟩
  trivial

theorem raises_crash (message : Text) : Raises (crash message : Exec α) := by
  rintro m _ _ ⟨⟩

theorem Raises.bind {x : Exec α} {k : α → Exec β} (hx : Raises x) (hk : ∀ a, Raises (k a)) :
    Raises (x >>= k) := by
  intro m f m' h
  cases hrun : x m with
  | ok a m₁ =>
    rw [bind_of_ok hrun] at h
    exact hk a m₁ f m' h
  | error e m₁ =>
    rw [bind_of_error hrun] at h
    cases h
    exact hx m f _ hrun

theorem raises_raise_typeName (v : Value) (f : Failure) (message : Text → Text) :
    Raises (typeName v >>= fun t => raise f (message t) : Exec α) :=
  (raises_reads _).bind fun _ => raises_raise _ _

/-!
# Operands
-/

theorem raises_push (v : Value) : Raises (push v) :=
  raises_modify _

theorem raises_top : Raises top := by
  intro m f m' h
  unfold top at h
  split at h <;> cases h

theorem raises_pop : Raises pop := by
  intro m f m' h
  unfold pop at h
  split at h <;> cases h

theorem raises_copy (v : Value) : Raises (copy v) := by
  unfold copy
  split
  iterate 4 exact raises_onStore _
  exact raises_pure _

theorem raises_popCount : Raises popCount := by
  refine raises_pop.bind fun v => ?_
  split
  · split
    · exact raises_crash _
    · exact raises_pure _
  · exact raises_crash _

theorem raises_checkCount (n : Int) : Raises (checkCount n) := by
  unfold checkCount
  split
  · exact raises_crash _
  · exact raises_pure _

theorem raises_popCopies (n : Nat) (acc : List Value) : Raises (popCopies n acc) := by
  induction n generalizing acc with
  | zero => exact raises_pure _
  | succ n ih => exact raises_pop.bind fun v => (raises_copy v).bind fun v => ih _

theorem raises_popArgs : Raises popArgs :=
  raises_popCount.bind fun n => (raises_checkCount n).bind fun n => raises_popCopies n []

theorem raises_condition (v : Value) : Raises (condition v) := by
  cases v with
  | boolean b => exact raises_pure b
  | _ => exact raises_raise_typeName _ _ _

theorem raises_popItems (n : Nat) (acc : Array Value) : Raises (popItems n acc) := by
  induction n generalizing acc with
  | zero => exact raises_pure _
  | succ n ih => exact raises_pop.bind fun v => (raises_copy v).bind fun v => ih _

theorem raises_popEntries (n : Nat) (acc : Table Value) : Raises (popEntries n acc) := by
  induction n generalizing acc with
  | zero => exact raises_pure _
  | succ n ih =>
    refine raises_pop.bind fun key => raises_pop.bind fun v => (raises_copy v).bind fun v => ?_
    cases key with
    | text k => exact ih _
    | _ => exact raises_raise _ _

theorem raises_popFields (n : Nat) (acc : List Text) : Raises (popFields n acc) := by
  induction n generalizing acc with
  | zero => exact raises_pure _
  | succ n ih =>
    refine raises_pop.bind fun v => ?_
    cases v with
    | text name => exact ih _
    | _ => exact raises_crash _

theorem raises_guardOf (name : Text) (v : Value) : Raises (guardOf name v) := by
  cases v with
  | null | type _ => exact raises_pure _
  | _ => exact raises_raise_typeName _ _ _

theorem raises_popParams (n : Nat) (acc : List Parameter) : Raises (popParams n acc) := by
  induction n generalizing acc with
  | zero => exact raises_pure _
  | succ n ih =>
    refine raises_pop.bind fun v => ?_
    cases v with
    | text name => exact raises_pop.bind fun g => (raises_guardOf name g).bind fun guard => ih _
    | _ => exact raises_crash _

/-!
# Members and bindings
-/

theorem raises_bind (method receiver : Value) : Raises (Exec.bind method receiver) := by
  cases method with
  | closure c =>
    unfold Exec.bind
    exact raises_onStore _
  | _ => exact raises_pure _

theorem raises_ownMember (object key : Value) : Raises (ownMember object key) := by
  unfold ownMember
  split
  · exact raises_reads _
  · exact raises_reads _
  · refine (raises_reads _).bind fun size => ?_
    split
    · exact (raises_reads _).bind fun _ => raises_pure _
    · exact raises_raise _ _
  · exact raises_pure _

theorem raises_method (object key : Value) : Raises (method object key) := by
  cases key with
  | text k =>
    refine (raises_reads _).bind fun found => ?_
    cases found with
    | some v => exact (raises_bind v object).bind fun _ => raises_pure _
    | none => exact raises_pure _
  | _ => exact raises_pure _

theorem raises_member (object key : Value) : Raises (member object key) := by
  refine (raises_ownMember object key).bind fun own => ?_
  cases own with
  | some v => exact raises_pure _
  | none =>
    refine (raises_method object key).bind fun found => ?_
    cases found with
    | some v => exact raises_pure _
    | none => exact (raises_reads _).bind fun _ => raises_raise_typeName _ _ _

theorem raises_setMember (target key value : Value) : Raises (setMember target key value) := by
  cases target with
  | dict d =>
    cases key with
    | text k =>
      unfold setMember
      exact raises_onStore _
    | _ => exact raises_raise_typeName _ _ _
  | list l =>
    refine (raises_reads _).bind fun size => ?_
    split
    · exact raises_onStore _
    · exact (raises_reads _).bind fun _ => raises_raise _ _
  | inst i =>
    refine (raises_reads _).bind fun t => ?_
    cases key with
    | text k =>
      refine (raises_reads _).bind fun found => ?_
      cases found with
      | some v => exact raises_onStore _
      | none => exact raises_raise _ _
    | _ => exact (raises_reads _).bind fun _ => raises_raise _ _
  | _ => exact raises_raise_typeName _ _ _

theorem raises_assign (scope : Scope) : Raises (assign scope) := by
  refine raises_pop.bind fun name => raises_pop.bind fun target => raises_pop.bind fun value =>
    (raises_copy value).bind fun value => ?_
  have hmember : Raises (setMember target name value >>= fun _ => push value) :=
    (raises_setMember target name value).bind fun _ => raises_push value
  cases target with
  | empty =>
    cases name with
    | text key =>
      have hname : Raises (nameClosure value key) := by
        cases value with
        | closure c =>
          unfold nameClosure
          exact raises_onStore _
        | _ => exact raises_pure _
      have hbind : Raises (bindName scope key value) := by
        refine (raises_reads _).bind fun frame => ?_
        cases frame with
        | none => exact raises_crash _
        | some f => exact raises_onStore _
      exact hname.bind fun _ => hbind.bind fun _ => raises_push value
    | _ => exact raises_crash _
  | _ => exact hmember

theorem raises_bump (name : Text) (up : Bool) : Raises (bump name up) := by
  refine (raises_reads _).bind fun found => ?_
  split
  · exact raises_raise _ _
  · exact raises_onStore _
  · exact raises_raise_typeName _ _ _

/-!
# Calls
-/

theorem raises_checkGuards (name : Text) (params : List Parameter) (args : List Value) :
    Raises (checkGuards name params args) := by
  induction params generalizing args with
  | nil => exact raises_pure _
  | cons p params ih =>
    cases args with
    | nil => exact raises_pure _
    | cons v args =>
      unfold checkGuards
      split
      · refine (raises_reads _).bind fun t => ?_
        split
        · exact ih args
        · exact raises_raise _ _
      · exact ih args

theorem raises_checkCall (c : Closure) (args : List Value) : Raises (checkCall c args) := by
  have hchecks : Raises (checkGuards (Store.closureName c) c.params (withReceiver c.receiver args) >>=
      fun _ => reads (·.options.maxDepth) >>= fun limit => reads (·.calls.size) >>= fun depth =>
        if limit ≤ depth then
          raise .callDepth ("call depth exceeds " ++ Text.ofNat limit ++ " in " ++ Store.closureName c)
        else pure ()) := by
    refine (raises_checkGuards _ _ _).bind fun _ => (raises_reads _).bind fun limit =>
      (raises_reads _).bind fun depth => ?_
    split
    · exact raises_raise _ _
    · exact raises_pure _
  unfold checkCall
  dsimp only
  split
  · exact (raises_raise _ _).bind fun _ => hchecks
  · exact hchecks

theorem raises_enterClosure (c : Closure) (args : List Value) (reentry : Bool) (native : Text) :
    Raises (enterClosure c args reentry native) := by
  intro m f m' h
  rw [enterClosure_eq] at h
  exact (raises_checkCall c args).bind (fun _ => raises_of_ok fun m => ⟨(), _, rfl⟩) m f m' h

theorem raises_callValue (callee : Value) (args : List Value) : Raises (callValue callee args) := by
  cases callee with
  | closure c =>
    refine (raises_reads _).bind fun found => ?_
    cases found with
    | none => exact raises_crash _
    | some cl => exact (raises_enterClosure cl args _ _).bind fun _ => raises_pure _
  | native | bound | type => exact raises_pure _
  | _ => exact raises_raise_typeName _ _ _

theorem raises_dispatch (op : Text) : Raises (dispatch op) := by
  refine raises_popArgs.bind fun args => ?_
  cases args with
  | nil => exact raises_crash _
  | cons first rest =>
    refine Raises.bind (x := operator op first) (raises_reads _) fun callee => ?_
    cases callee with
    | some callee => exact raises_callValue _ _
    | none =>
      refine (raises_reads _).bind fun t => ?_
      split
      · exact raises_raise_typeName _ _ _
      · exact raises_raise _ _

theorem raises_ret : Raises ret := by
  refine raises_pop.bind fun v => (raises_reads _).bind fun record => ?_
  cases record with
  | none => exact raises_pure _
  | some record =>
    refine (raises_reads _).bind fun boundary => (raises_modify _).bind fun _ => ?_
    cases boundary with
    | none => exact raises_crash _
    | some b =>
      refine (raises_modify _).bind fun _ => (raises_modify _).bind fun _ => ?_
      split
      · exact raises_pure _
      · exact (raises_push v).bind fun _ => (raises_modify _).bind fun _ => raises_pure _

/-- Whatever an instruction raises has no place yet. -/
theorem raises_step (op : Op) : Raises (step op) := by
  have hpush : ∀ v : Value, Raises (push v >>= fun _ => pure Next.next) :=
    fun v => (raises_push v).bind fun _ => raises_pure _
  cases op with
  | push v => exact hpush v
  | buildList =>
    exact raises_popCount.bind fun n => (raises_checkCount n).bind fun n =>
      (raises_popItems n #[]).bind fun items => (raises_onStore _).bind fun id => hpush _
  | buildDict =>
    exact raises_popCount.bind fun n => (raises_popEntries _ _).bind fun entries =>
      (raises_onStore _).bind fun id => hpush _
  | buildType name =>
    exact raises_popCount.bind fun n => (raises_checkCount n).bind fun n =>
      (raises_popFields n []).bind fun fields => hpush _
  | buildFunc d =>
    have hbuild : Raises buildClosure :=
      raises_popCount.bind fun n => (raises_checkCount n).bind fun n =>
        (raises_popParams n []).bind fun params => (raises_reads _).bind fun ip =>
          (raises_reads _).bind fun frame => raises_onStore _
    exact hbuild.bind fun c => (raises_push c).bind fun _ => raises_pure _
  | jump d => exact raises_pure _
  | jumpPeek expected d =>
    exact raises_top.bind fun v => (raises_condition v).bind fun b => raises_pure _
  | jumpIfFalse d =>
    exact raises_pop.bind fun v => (raises_condition v).bind fun b => raises_pure _
  | call =>
    exact raises_pop.bind fun callee => raises_popArgs.bind fun args => raises_callValue callee args
  | dispatch op => exact raises_dispatch op
  | ret => exact raises_ret
  | getVar name =>
    refine (raises_reads _).bind fun found => ?_
    cases found with
    | some v => exact hpush v
    | none => exact raises_raise _ _
  | getMember =>
    exact raises_pop.bind fun key => raises_pop.bind fun object =>
      (raises_member object key).bind fun v => hpush v
  | assign scope => exact (raises_assign scope).bind fun _ => raises_pure _
  | bump name up => exact (raises_bump name up).bind fun _ => raises_pure _
  | negate =>
    refine raises_pop.bind fun v => ?_
    cases v with
    | number x => exact hpush _
    | _ => exact raises_raise_typeName _ _ _
  | not => exact raises_pop.bind fun v => (raises_condition v).bind fun b => hpush _
  | stray again => exact raises_raise _ _
  | scopeEnter =>
    exact (raises_reads _).bind fun frame => (raises_onStore _).bind fun id =>
      (raises_modify _).bind fun _ => raises_pure _
  | scopeExit =>
    refine (raises_reads _).bind fun found => ?_
    cases found with
    | none => exact raises_crash _
    | some fr =>
      dsimp only
      split
      · exact raises_crash _
      · exact (raises_modify _).bind fun _ => raises_pure _
  | pop => exact raises_pop.bind fun _ => raises_pure _
  | unknown b => exact raises_crash _

/-!
# Conversions
-/

theorem raises_convert (v : Value) (target : Text) : Raises (effect (Native.convert v target)) := by
  have hrefuse : Raises (effect (Native.cannotConvert v target)) := by
    unfold Native.cannotConvert
    rw [effect_bind]
    exact Raises.bind (raises_reads _) fun _ => raises_raise _ _
  unfold Native.convert
  rw [effect_bind]
  refine Raises.bind (raises_reads _) fun own => ?_
  split
  · unfold Native.copyValue
    rw [effect_changeGet]
    exact raises_onStore _
  split
  · rw [effect_bind]
    exact Raises.bind (raises_reads _) fun _ => raises_pure _
  split
  · cases v with
    | text t =>
      unfold Native.parseNumber
      dsimp only
      split
      · exact raises_pure _
      · exact raises_raise _ _
    | boolean b => exact raises_pure _
    | _ => exact hrefuse
  split
  · cases v with
    | number _ | text _ | null => exact raises_pure _
    | _ => exact hrefuse
  split
  · cases v with
    | text t =>
      unfold Native.charList
      rw [effect_changeGet]
      exact raises_onStore _
    | dict d =>
      dsimp only
      rw [effect_bind]
      refine Raises.bind (raises_reads _) fun _ => ?_
      unfold Effect.newList
      rw [effect_changeGet]
      exact raises_onStore _
    | _ => exact hrefuse
  split
  · cases v with
    | inst i =>
      unfold Native.fieldDict
      rw [effect_changeGet]
      exact raises_onStore _
    | _ => exact hrefuse
  split
  · rw [effect_bind]
    exact Raises.bind (raises_reads _) fun _ => raises_pure _
  · exact hrefuse

end Exec
end ScriptEngine
