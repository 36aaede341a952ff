import ScriptEngine.Machine.Run
import ScriptEngine.Proofs.Machine.Operands
import ScriptEngine.Proofs.Store.Clean

/-!
# Work on values

Between popping its operands and pushing its result an instruction works on values alone: it may
change the store, which grows, and nothing else of the engine. Where the store and the operands are
clean, such work does not crash, its result is clean and it fails only with classes of the engine.

Both statements are made at once. The proposition `tidy` says that the store is clean; without it
only the first statement is made.
-/

namespace ScriptEngine

namespace Failure

/-- One of the engine's classes other than the internal one. -/
def Known (f : Failure) : Prop :=
  f ≠ .internal ∧ ∀ n, f ≠ .other n

end Failure

namespace Fault

/-- A fault of the engine whose class and diagnostics are known. -/
def Known : Fault → Prop
  | .raised f _ => f.Known
  | .located f _ problems _ => f.Known ∧ ∀ p ∈ problems, p.code ≠ Text.ofString "RE0000"
  | .foreign _ => False

end Fault

namespace Exec

variable {α β : Type} {tidy strict : Prop} {n : NativeInfo → Prop} {m : Machine}

/-- The computation changes only the store, which grows; its result has the property `P`. -/
def Keeps (tidy strict : Prop) (n : NativeInfo → Prop) (x : Exec α) (m : Machine) (P : α → Store → Prop) : Prop :=
  match x m with
  | .ok a m' => ∃ s, m' = m.withStore s ∧ m.world.store.Grows s ∧ (tidy → s.Neat strict n) ∧ P a s
  | .error (.fault f) m' =>
    ∃ s, m' = m.withStore s ∧ m.world.store.Grows s ∧ (tidy → s.Neat strict n ∧ f.Known)
  | .error (.crash _) _ => ¬ tidy

/-- The value is clean if the store is. -/
abbrev Good (tidy : Prop) (n : NativeInfo → Prop) (v : Value) (s : Store) : Prop :=
  tidy → s.Admits n v

namespace Keeps

variable {P : α → Store → Prop} {Q : β → Store → Prop}

theorem pure {a : α} (hclean : tidy → m.world.store.Neat strict n) (hP : P a m.world.store) :
    Keeps tidy strict n (Pure.pure a) m P :=
  ⟨m.world.store, rfl, .refl _, hclean, hP⟩

theorem reads {f : Machine → α} (hclean : tidy → m.world.store.Neat strict n)
    (hP : P (f m) m.world.store) : Keeps tidy strict n (Exec.reads f) m P :=
  ⟨m.world.store, rfl, .refl _, hclean, hP⟩

theorem raise {f : Failure} {message : Text} (hclean : tidy → m.world.store.Neat strict n)
    (hf : f.Known) : Keeps tidy strict n (Exec.raise f message : Exec α) m P :=
  ⟨m.world.store, rfl, .refl _, fun ht => ⟨hclean ht, hf⟩⟩

theorem crash {message : Text} (h : ¬ tidy) : Keeps tidy strict n (Exec.crash message : Exec α) m P :=
  h

theorem onStore {f : Store → α × Store} (hgrows : m.world.store.Grows (f m.world.store).2)
    (hclean : tidy → (f m.world.store).2.Neat strict n)
    (hP : P (f m.world.store).1 (f m.world.store).2) : Keeps tidy strict n (Exec.onStore f) m P :=
  ⟨(f m.world.store).2, rfl, hgrows, hclean, hP⟩

theorem change {f : Store → Store} (hgrows : m.world.store.Grows (f m.world.store))
    (hclean : tidy → (f m.world.store).Neat strict n) :
    Keeps tidy strict n (Exec.onStore fun s => ((), f s)) m fun _ _ => True :=
  ⟨f m.world.store, rfl, hgrows, hclean, trivial⟩

theorem bind {x : Exec α} {k : α → Exec β} (hx : Keeps tidy strict n x m P)
    (hk : ∀ a s, m.world.store.Grows s → (tidy → s.Neat strict n) → P a s →
      Keeps tidy strict n (k a) (m.withStore s) Q) : Keeps tidy strict n (x >>= k) m Q := by
  unfold Keeps at hx ⊢
  cases hrun : x m with
  | ok a m' =>
    rw [hrun] at hx
    obtain ⟨s, rfl, hgrows, hclean, hP⟩ := hx
    have hnext := hk a s hgrows hclean hP
    unfold Keeps at hnext
    rw [bind_of_ok hrun]
    cases hrun' : k a (m.withStore s) with
    | ok b m'' =>
      rw [hrun'] at hnext
      obtain ⟨s', rfl, hgrows', hclean', hQ⟩ := hnext
      exact ⟨s', rfl, hgrows.trans hgrows', hclean', hQ⟩
    | error e m'' =>
      rw [hrun'] at hnext
      cases e with
      | fault f =>
        obtain ⟨s', rfl, hgrows', hclean'⟩ := hnext
        exact ⟨s', rfl, hgrows.trans hgrows', hclean'⟩
      | crash message => exact hnext
  | error e m' =>
    rw [hrun] at hx
    rw [bind_of_error hrun]
    cases e with
    | fault f => exact hx
    | crash message => exact hx

theorem imp {P' : α → Store → Prop} {x : Exec α} (hx : Keeps tidy strict n x m P)
    (himp : ∀ a s, m.world.store.Grows s → P a s → P' a s) : Keeps tidy strict n x m P' := by
  unfold Keeps at hx ⊢
  cases hrun : x m with
  | ok a m' =>
    rw [hrun] at hx
    obtain ⟨s, hm, hgrows, hclean, hP⟩ := hx
    exact ⟨s, hm, hgrows, hclean, himp a s hgrows hP⟩
  | error e m' =>
    rw [hrun] at hx
    cases e with
    | fault f => exact hx
    | crash message => exact hx

end Keeps

/-!
# Copies, members and assignment
-/

section
variable (hclean : tidy → m.world.store.Neat strict n)
include hclean

theorem keeps_copy {v : Value} (hv : Good tidy n v m.world.store) :
    Keeps tidy strict n (copy v) m (Good tidy n) := by
  unfold Keeps
  rw [copy_eq]
  exact ⟨_, rfl, .copy _ v, fun ht => ((hclean ht).copy (hv ht)).1,
    fun ht => ((hclean ht).copy (hv ht)).2⟩

theorem keeps_raise_typeName {v : Value} {f : Failure} {message : Text → Text} (hf : f.Known)
    {P : α → Store → Prop} :
    Keeps tidy strict n (typeName v >>= fun t => raise f (message t) : Exec α) m P :=
  (Keeps.reads hclean (P := fun _ _ => True) trivial).bind fun _ _ _ hclean _ =>
    Keeps.raise hclean hf

theorem keeps_condition (v : Value) : Keeps tidy strict n (condition v) m fun _ _ => True := by
  cases v with
  | boolean b => exact Keeps.pure hclean trivial
  | _ => exact keeps_raise_typeName hclean (by simp [Failure.Known])

theorem keeps_bind {method receiver : Value} (hmethod : Good tidy n method m.world.store)
    (hreceiver : Good tidy n receiver m.world.store) :
    Keeps tidy strict n (Exec.bind method receiver) m (Good tidy n) := by
  cases method with
  | closure c =>
    unfold Exec.bind
    cases hc : m.world.store.closure? c with
    | none =>
      refine Keeps.onStore ?_ ?_ ?_
      all_goals simp only [hc]
      · exact .refl _
      · exact hclean
      · exact hmethod
    | some cl =>
      refine Keeps.onStore ?_ ?_ ?_
      all_goals simp only [hc]
      · exact .newClosure hc rfl
      · refine fun ht => (hclean ht).newClosure fun r hr => ?_
        cases hr
        exact hreceiver ht
      · exact fun _ => Store.admits_newClosure _ _ n
  | native info => exact Keeps.pure hclean fun ht => ⟨hmethod ht, hreceiver ht⟩
  | bound info r => exact Keeps.pure hclean fun ht => ⟨(hmethod ht).1, hreceiver ht⟩
  | _ => exact Keeps.pure hclean hmethod

theorem keeps_ownMember (object key : Value) :
    Keeps tidy strict n (ownMember object key) m fun v s => ∀ a, v = some a → Good tidy n a s := by
  have hnone : Keeps tidy strict n (pure none) m fun (v : Option Value) s =>
      ∀ a, v = some a → Good tidy n a s := Keeps.pure hclean fun _ h => by cases h
  cases object with
  | dict d =>
    cases key with
    | text k => exact Keeps.reads hclean fun a ha ht => (hclean ht).dict d k a ha
    | _ => exact hnone
  | inst i =>
    cases key with
    | text k => exact Keeps.reads hclean fun a ha ht => (hclean ht).field ha
    | _ => exact hnone
  | list l =>
    cases key with
    | number x =>
      refine Keeps.bind (Keeps.reads hclean (P := fun _ _ => True) trivial) ?_
      intro size s hgrows hclean' _
      split
      · rename_i i _
        refine Keeps.bind (P := fun v s => Good tidy n v s) (Keeps.reads hclean' ?_) ?_
        · exact fun ht => (hclean' ht).listGet l i
        · intro v s' _ hclean'' hv
          refine Keeps.pure hclean'' ?_
          intro a ha
          cases ha
          exact hv
      · exact Keeps.raise hclean' (by simp [Failure.Known])
    | _ => exact hnone
  | _ => exact hnone

/-- What a name is bound to is clean. -/
theorem good_resolve (hlib : tidy → m.library.bindings.All (m.world.store.Admits n)) {name : Text}
    {v : Value} (h : m.resolve name = some v) : Good tidy n v m.world.store := by
  intro ht
  unfold Machine.resolve at h
  split at h
  · rename_i v' owner hv
    cases h
    exact (hclean ht).lookup hv
  · exact hlib ht name v h

section
variable (hlib : tidy → m.library.bindings.All (m.world.store.Admits n))
include hlib

theorem keeps_variable (name : Text) : Keeps tidy strict n (valueOf name) m (Good tidy n) := by
  refine Keeps.bind (P := fun v s => s = m.world.store ∧ v = m.resolve name)
    (Keeps.reads hclean ⟨rfl, rfl⟩) ?_
  rintro v s - hclean' ⟨rfl, rfl⟩
  cases hv : m.resolve name with
  | none => exact Keeps.raise hclean' (by simp [Failure.Known])
  | some v => exact Keeps.pure hclean' (good_resolve hclean hlib hv)

theorem keeps_method {object : Value} (hobject : Good tidy n object m.world.store) (key : Value) :
    Keeps tidy strict n (method object key) m fun v s => ∀ a, v = some a → Good tidy n a s := by
  cases key with
  | text k =>
    refine Keeps.bind (P := fun v s => s = m.world.store ∧
      v = m.resolve (Key.join k (m.world.store.typeName object))) (Keeps.reads hclean ⟨rfl, rfl⟩) ?_
    rintro v s - hclean' ⟨rfl, rfl⟩
    cases hv : m.resolve (Key.join k (m.world.store.typeName object)) with
    | none => exact Keeps.pure hclean' fun _ h => by cases h
    | some v =>
      refine (keeps_bind hclean' (good_resolve hclean hlib hv) hobject).bind ?_
      intro v s _ hclean'' hv
      refine Keeps.pure hclean'' ?_
      intro a ha
      cases ha
      exact hv
  | _ => exact Keeps.pure hclean fun _ h => by cases h

theorem keeps_member {object : Value} (hobject : Good tidy n object m.world.store) (key : Value) :
    Keeps tidy strict n (member object key) m (Good tidy n) := by
  refine (keeps_ownMember hclean object key).bind ?_
  intro own s hgrows hclean' hown
  cases own with
  | some v => exact Keeps.pure hclean' (hown v rfl)
  | none =>
    have hlib' : tidy → (m.withStore s).library.bindings.All ((m.withStore s).world.store.Admits n) :=
      fun ht => (hlib ht).imp fun _ hv => hv.grows hgrows
    refine (keeps_method hclean' hlib' (fun ht => (hobject ht).grows hgrows) key).bind ?_
    intro found s' _ hclean'' hfound
    cases found with
    | some v => exact Keeps.pure hclean'' (hfound v rfl)
    | none =>
      refine Keeps.bind (Keeps.reads hclean'' (P := fun _ _ => True) trivial) ?_
      intro _ _ _ hclean _
      exact keeps_raise_typeName hclean (by simp [Failure.Known])

theorem keeps_operator (op : Text) (first : Value) :
    Keeps tidy strict n (operator op first) m fun v s => ∀ a, v = some a → Good tidy n a s := by
  refine Keeps.reads hclean ?_
  intro a ha
  dsimp only at ha
  split at ha
  · rename_i v hv
    cases ha
    exact good_resolve hclean hlib hv
  · exact fun ht => hlib ht _ a ha

end

theorem keeps_setMember {target key value : Value} (hvalue : Good tidy n value m.world.store) :
    Keeps tidy strict n (setMember target key value) m fun _ _ => True := by
  cases target with
  | dict d =>
    cases key with
    | text k =>
      unfold setMember
      exact Keeps.change (.of_same rfl rfl) fun ht => (hclean ht).insertDict d k (hvalue ht)
    | _ => exact keeps_raise_typeName hclean (by simp [Failure.Known])
  | list l =>
    refine Keeps.bind (P := fun _ s => s = m.world.store) (Keeps.reads hclean rfl) ?_
    rintro size s - hclean' rfl
    split
    · exact Keeps.change (.of_same rfl rfl) fun ht => (hclean ht).listSet l _ (hvalue ht)
    · refine Keeps.bind (Keeps.reads hclean' (P := fun _ _ => True) trivial) ?_
      intro _ _ _ hclean _
      exact Keeps.raise hclean (by simp [Failure.Known])
  | inst i =>
    refine Keeps.bind (P := fun _ s => s = m.world.store) (Keeps.reads hclean rfl) ?_
    rintro t s - hclean' rfl
    cases key with
    | text k =>
      refine Keeps.bind (P := fun _ s => s = m.world.store) (Keeps.reads hclean' rfl) ?_
      rintro found s - hclean' rfl
      cases found with
      | some v =>
        exact Keeps.change (.of_same rfl rfl) fun ht => (hclean ht).setField i k (hvalue ht)
      | none => exact Keeps.raise hclean' (by simp [Failure.Known])
    | _ =>
      refine Keeps.bind (Keeps.reads hclean' (P := fun _ _ => True) trivial) ?_
      intro _ _ _ hclean _
      exact Keeps.raise hclean (by simp [Failure.Known])
  | _ => exact keeps_raise_typeName hclean (by simp [Failure.Known])

theorem keeps_nameClosure (v : Value) (name : Text) :
    Keeps tidy strict n (nameClosure v name) m fun _ _ => True := by
  cases v with
  | closure c =>
    unfold nameClosure
    exact Keeps.change (.modifyClosure _ c fun _ => rfl) fun ht => (hclean ht).nameClosure c name
  | _ => exact Keeps.pure hclean trivial

theorem keeps_bindName {scope : Scope} {name : Text} {v : Value} (hframe : tidy → m.frame ≠ none)
    (hv : Good tidy n v m.world.store) :
    Keeps tidy strict n (bindName scope name v) m fun _ _ => True := by
  refine Keeps.bind (P := fun f s => s = m.world.store ∧ f = m.frame)
    (Keeps.reads hclean ⟨rfl, rfl⟩) ?_
  rintro f s - hclean' ⟨rfl, rfl⟩
  cases hf : m.frame with
  | none => exact Keeps.crash fun ht => hframe ht hf
  | some f =>
    cases scope with
    | inner =>
      exact Keeps.change (.define _ f name v) fun ht => (hclean ht).define f name (hv ht)
    | nearest =>
      exact Keeps.change (.setNearest _ f name v) fun ht => (hclean ht).setNearest f name (hv ht)
    | outer =>
      exact Keeps.change (.setOuter _ f name v) fun ht => (hclean ht).setOuter f name (hv ht)

/-- An assignment crashes only if its target is a marker without a name. -/
theorem keeps_place {scope : Scope} {name target value : Value} (hframe : tidy → m.frame ≠ none)
    (htarget : tidy → (∃ key, name = .text key) ∨ target ≠ .empty)
    (hvalue : Good tidy n value m.world.store) :
    Keeps tidy strict n (place scope name target value) m (Good tidy n) := by
  refine (keeps_copy hclean hvalue).bind ?_
  intro v s hgrows hclean' hv
  have hmember : Keeps tidy strict n (setMember target name v >>= fun _ => pure v) (m.withStore s)
      (Good tidy n) := by
    refine (keeps_setMember hclean' hv).bind ?_
    intro _ s' hgrows' hclean'' _
    exact Keeps.pure hclean'' fun ht => (hv ht).grows hgrows'
  cases target with
  | empty =>
    cases name with
    | text key =>
      refine (keeps_nameClosure hclean' v key).bind ?_
      intro _ s' hgrows' hclean'' _
      have hv' : Good tidy n v s' := fun ht => (hv ht).grows hgrows'
      refine (keeps_bindName (m := (m.withStore s).withStore s') hclean'' hframe hv').bind ?_
      intro _ s₁ hgrows₁ hclean₁ _
      exact Keeps.pure hclean₁ fun ht => (hv' ht).grows hgrows₁
    | _ =>
      refine Keeps.crash fun ht => ?_
      rcases htarget ht with ⟨key, hkey⟩ | hne
      · cases hkey
      · exact hne rfl
  | _ => exact hmember

theorem keeps_bump (name : Text) (up : Bool) :
    Keeps tidy strict n (bump name up) m fun _ _ => True := by
  refine Keeps.bind (P := fun _ s => s = m.world.store) (Keeps.reads hclean rfl) ?_
  rintro found s - hclean' rfl
  cases found with
  | none => exact Keeps.raise hclean' (by simp [Failure.Known])
  | some found =>
    obtain ⟨v, owner⟩ := found
    cases v with
    | number x =>
      exact Keeps.change (.define _ owner name _) fun ht => (hclean' ht).define owner name trivial
    | _ => exact keeps_raise_typeName hclean' (by simp [Failure.Known])

theorem keeps_negated (v : Value) : Keeps tidy strict n (negated v) m (Good tidy n) := by
  cases v with
  | number x => exact Keeps.pure hclean fun _ => trivial
  | _ => exact keeps_raise_typeName hclean (by simp [Failure.Known])

theorem keeps_inverted (v : Value) : Keeps tidy strict n (inverted v) m (Good tidy n) :=
  (keeps_condition hclean v).bind fun _ _ _ hclean _ => Keeps.pure hclean fun _ => trivial

/-!
# Containers, parameters and guards
-/

theorem keeps_copyArgs {l acc : List Value} (hl : ∀ v ∈ l, Good tidy n v m.world.store)
    (hacc : ∀ v ∈ acc, Good tidy n v m.world.store) :
    Keeps tidy strict n (copyArgs l acc) m fun args s =>
      args.length = l.length + acc.length ∧ ∀ v ∈ args, Good tidy n v s := by
  induction l generalizing m acc with
  | nil => exact Keeps.pure hclean ⟨(Nat.zero_add _).symm, hacc⟩
  | cons v l ih =>
    refine (keeps_copy hclean (hl v List.mem_cons_self)).bind ?_
    intro v' s hgrows hclean' hv'
    have hrest := @ih (m.withStore s) hclean' (v' :: acc)
      (fun w hw ht => (hl w (List.mem_cons_of_mem v hw) ht).grows hgrows) (by
        intro w hw
        rcases List.mem_cons.mp hw with rfl | hw
        · exact hv'
        · exact fun ht => (hacc w hw ht).grows hgrows)
    refine hrest.imp fun args s' _ ⟨hlen, hgood⟩ => ⟨?_, hgood⟩
    rw [hlen, List.length_cons, List.length_cons]
    omega

theorem keeps_copyItems {l : List Value} {acc : Array Value}
    (hl : ∀ v ∈ l, Good tidy n v m.world.store) (hacc : ∀ v ∈ acc, Good tidy n v m.world.store) :
    Keeps tidy strict n (copyItems l acc) m fun items s => ∀ v ∈ items, Good tidy n v s := by
  induction l generalizing m acc with
  | nil => exact Keeps.pure hclean hacc
  | cons v l ih =>
    refine (keeps_copy hclean (hl v List.mem_cons_self)).bind ?_
    intro v' s hgrows hclean' hv'
    refine @ih (m.withStore s) hclean' (acc.push v')
      (fun w hw ht => (hl w (List.mem_cons_of_mem v hw) ht).grows hgrows) ?_
    intro w hw
    rcases Array.mem_push.mp hw with hw | rfl
    · exact fun ht => (hacc w hw ht).grows hgrows
    · exact hv'

theorem keeps_copyEntries {pairs : List (Value × Value)} {acc : Table Value}
    (hpairs : ∀ p ∈ pairs, Good tidy n p.2 m.world.store)
    (hacc : tidy → acc.Holds strict (m.world.store.Admits n)) :
    Keeps tidy strict n (copyEntries pairs acc) m fun t s => tidy → t.Holds strict (s.Admits n) := by
  induction pairs generalizing m acc with
  | nil => exact Keeps.pure hclean hacc
  | cons p pairs ih =>
    obtain ⟨key, v⟩ := p
    refine (keeps_copy hclean (hpairs (key, v) List.mem_cons_self)).bind ?_
    intro v' s hgrows hclean' hv'
    cases key with
    | text k =>
      refine @ih (m.withStore s) hclean' (acc.insert k v')
        (fun q hq ht => (hpairs q (List.mem_cons_of_mem _ hq) ht).grows hgrows) fun ht => ?_
      exact ((hacc ht).imp fun _ hw => hw.grows hgrows).insert k (hv' ht)
    | _ => exact Keeps.raise hclean' (by simp [Failure.Known])

theorem keeps_listOf {l : List Value} (hl : ∀ v ∈ l, Good tidy n v m.world.store) :
    Keeps tidy strict n (listOf l) m (Good tidy n) := by
  refine (keeps_copyItems hclean hl fun v hv => by simp at hv).bind ?_
  intro items s _ hclean' hitems
  exact Keeps.onStore (.of_same rfl rfl)
    (fun ht => (hclean' ht).newListIn (fun v hv => hitems v hv ht) _) fun _ => trivial

theorem keeps_dictOf {pairs : List (Value × Value)}
    (hpairs : ∀ p ∈ pairs, Good tidy n p.2 m.world.store) :
    Keeps tidy strict n (dictOf pairs) m (Good tidy n) := by
  refine (keeps_copyEntries hclean hpairs fun _ => .of_every Table.Every.empty).bind ?_
  intro entries s _ hclean' hentries
  exact Keeps.onStore (.of_same rfl rfl) (fun ht => (hclean' ht).newDict (hentries ht))
    fun _ => trivial

theorem keeps_guardOf (name : Text) (g : Value) :
    Keeps tidy strict n (guardOf name g) m fun _ _ => True := by
  cases g with
  | null => exact Keeps.pure hclean trivial
  | type t => exact Keeps.pure hclean trivial
  | _ => exact keeps_raise_typeName hclean (by simp [Failure.Known])

theorem keeps_guardAll (params : List (Text × Value)) (acc : List Parameter) :
    Keeps tidy strict n (guardAll params acc) m fun _ _ => True := by
  induction params generalizing m acc with
  | nil => exact Keeps.pure hclean trivial
  | cons p params ih =>
    obtain ⟨name, g⟩ := p
    refine (keeps_guardOf hclean name g).bind ?_
    intro guard s _ hclean' _
    exact ih hclean' _

/-- Checking arguments changes nothing. -/
theorem keeps_checkGuards (name : Text) (params : List Parameter) (args : List Value) :
    Keeps tidy strict n (checkGuards name params args) m fun _ s => s = m.world.store := by
  induction params generalizing args with
  | nil => exact Keeps.pure hclean rfl
  | cons p params ih =>
    cases args with
    | nil => exact Keeps.pure hclean rfl
    | cons v args =>
      unfold checkGuards
      split
      · rename_i g _
        refine Keeps.bind (P := fun _ s => s = m.world.store) (Keeps.reads hclean rfl) ?_
        rintro t s - - rfl
        split
        · exact ih args
        · exact Keeps.raise hclean (by simp [Failure.Known])
      · exact ih args

/-- The checks before a call change nothing. -/
theorem keeps_checkCall (c : Closure) (args : List Value) :
    Keeps tidy strict n (checkCall c args) m fun _ s => s = m.world.store := by
  unfold checkCall
  dsimp only
  split
  · exact Keeps.raise hclean (by simp [Failure.Known])
  refine (keeps_checkGuards hclean _ _ _).bind ?_
  rintro _ s - - rfl
  refine Keeps.bind (P := fun _ s => s = m.world.store) (Keeps.reads hclean rfl) ?_
  rintro limit s - - rfl
  refine Keeps.bind (P := fun _ s => s = m.world.store) (Keeps.reads hclean rfl) ?_
  rintro depth s - - rfl
  split
  · exact Keeps.raise hclean (by simp [Failure.Known])
  · exact Keeps.pure hclean rfl

end

/-!
# Conversions and new instances
-/

theorem effect_of_ok {α : Type} {e : Effect α} {a : α} {w : World} (h : e m.world = .ok a w) :
    effect e m = .ok a { m with world := w } := by
  cases m
  unfold effect
  dsimp only at h ⊢
  rw [h]

theorem effect_of_error {α : Type} {e : Effect α} {stop : Stop} {w : World}
    (h : e m.world = .error stop w) : effect e m = .error stop { m with world := w } := by
  cases m
  unfold effect
  dsimp only at h ⊢
  rw [h]

theorem effect_bind {α β : Type} (e : Effect α) (k : α → Effect β) :
    effect (e >>= k) = effect e >>= fun a => effect (k a) := by
  funext m
  have hbind : (e >>= k) m.world = EStateM.bind e k m.world := rfl
  unfold EStateM.bind at hbind
  cases hrun : e m.world with
  | ok a w =>
    rw [hrun] at hbind
    rw [bind_of_ok (effect_of_ok hrun)]
    cases hnext : k a w with
    | ok b w' => rw [effect_of_ok (hbind.trans hnext), effect_of_ok (by exact hnext)]
    | error stop w' => rw [effect_of_error (hbind.trans hnext), effect_of_error (by exact hnext)]
  | error stop w =>
    rw [hrun] at hbind
    rw [bind_of_error (effect_of_error hrun), effect_of_error hbind]

theorem effect_changeGet {α : Type} (f : Store → α × Store) :
    effect (Effect.changeGet f) = onStore f := rfl

section
variable (hclean : tidy → m.world.store.Neat strict n)
include hclean

theorem keeps_cannotConvert {v : Value} {target : Text} {P : Value → Store → Prop} :
    Keeps tidy strict n (effect (Native.cannotConvert v target)) m P := by
  unfold Native.cannotConvert
  rw [effect_bind]
  exact Keeps.bind (Keeps.reads hclean (P := fun _ _ => True) trivial) fun _ _ _ hclean _ =>
    Keeps.raise hclean (by simp [Failure.Known])

theorem keeps_newList {items : Store → Array Value}
    (hitems : tidy → ∀ v ∈ items m.world.store, m.world.store.Admits n v) :
    Keeps tidy strict n (effect (Effect.reads items >>= Effect.newList)) m (Good tidy n) := by
  rw [effect_bind]
  refine Keeps.bind (P := fun l s => s = m.world.store ∧ l = items s) (Keeps.reads hclean ⟨rfl, rfl⟩) ?_
  rintro l s - hclean' ⟨rfl, rfl⟩
  unfold Effect.newList
  rw [effect_changeGet]
  exact Keeps.onStore (.of_same rfl rfl) (fun ht => (hclean ht).newListIn (hitems ht) _)
    fun _ => trivial

theorem keeps_charList (t : Text) :
    Keeps tidy strict n (effect (Native.charList t)) m (Good tidy n) := by
  unfold Native.charList
  rw [effect_changeGet]
  refine Keeps.onStore (.of_same rfl rfl) (fun ht => (hclean ht).newListIn ?_ _) fun _ => trivial
  intro v hv
  rw [List.mem_toArray, List.mem_map] at hv
  obtain ⟨c, -, rfl⟩ := hv
  trivial

theorem keeps_fieldDict (i : InstanceId) :
    Keeps tidy strict n (effect (Native.fieldDict i)) m (Good tidy n) := by
  unfold Native.fieldDict
  rw [effect_changeGet]
  refine Keeps.onStore (.of_same rfl rfl) (fun ht => (hclean ht).newDict ?_) fun _ => trivial
  refine .of_every (Table.Every.insertAll Table.Every.empty ?_)
  intro p hp
  obtain ⟨f, -, rfl⟩ := List.mem_map.mp hp
  show m.world.store.Admits n ((m.world.store.field? i f).getD .null)
  cases hf : m.world.store.field? i f with
  | none => trivial
  | some v => exact (hclean ht).field hf

theorem keeps_convert {v : Value} (hv : Good tidy n v m.world.store) (target : Text) :
    Keeps tidy strict n (effect (Native.convert v target)) m (Good tidy n) := by
  unfold Native.convert
  rw [effect_bind]
  refine Keeps.bind (P := fun _ s => s = m.world.store) (Keeps.reads hclean rfl) ?_
  rintro own s - - rfl
  have hrefuse : Keeps tidy strict n (effect (Native.cannotConvert v target)) m (Good tidy n) :=
    keeps_cannotConvert hclean
  split
  · unfold Native.copyValue
    rw [effect_changeGet]
    exact Keeps.onStore (.copy _ v) (fun ht => ((hclean ht).copy (hv ht)).1)
      fun ht => ((hclean ht).copy (hv ht)).2
  split
  · rw [effect_bind]
    exact Keeps.bind (Keeps.reads hclean (P := fun _ _ => True) trivial) fun _ _ _ hclean _ =>
      Keeps.pure hclean fun _ => trivial
  split
  · cases v with
    | text t =>
      unfold Native.parseNumber
      dsimp only
      split
      · exact Keeps.pure hclean fun _ => trivial
      · exact Keeps.raise hclean (by simp [Failure.Known])
    | boolean b => exact Keeps.pure hclean fun _ => trivial
    | _ => exact hrefuse
  split
  · cases v with
    | number _ | text _ | null => exact Keeps.pure hclean fun _ => trivial
    | _ => exact hrefuse
  split
  · cases v with
    | text t => exact keeps_charList hclean t
    | dict d =>
      refine keeps_newList hclean fun ht w hw => ?_
      unfold Native.dictKeys at hw
      rw [List.mem_toArray, List.mem_map] at hw
      obtain ⟨k, -, rfl⟩ := hw
      trivial
    | _ => exact hrefuse
  split
  · cases v with
    | inst i => exact keeps_fieldDict hclean i
    | _ => exact hrefuse
  split
  · rw [effect_bind]
    exact Keeps.bind (Keeps.reads hclean (P := fun _ _ => True) trivial) fun _ _ _ hclean _ =>
      Keeps.pure hclean fun _ => trivial
  · exact hrefuse

theorem keeps_fill {i : InstanceId} {pairs : List (Text × Value)}
    (hpairs : ∀ p ∈ pairs, Good tidy n p.2 m.world.store) :
    Keeps tidy strict n (onStore fun s => ((), State.startConstruction.fill s i pairs)) m
      fun _ _ => True := by
  have hfill : ∀ (pairs : List (Text × Value)) (s : Store),
      s.Grows (State.startConstruction.fill s i pairs) ∧ (s.Neat strict n →
        (∀ p ∈ pairs, s.Admits n p.2) → (State.startConstruction.fill s i pairs).Neat strict n) := by
    intro pairs
    induction pairs with
    | nil => exact fun s => ⟨.refl s, fun h _ => h⟩
    | cons p rest ih =>
      intro s
      obtain ⟨hgrows, hrest⟩ := ih (s.setField i p.1 p.2)
      refine ⟨?_, fun hs hp => ?_⟩
      · have hfield : s.Grows (s.setField i p.1 p.2) := .of_same rfl rfl
        exact hfield.trans hgrows
      exact hrest (hs.setField i p.1 (hp p List.mem_cons_self))
        fun q hq => hp q (List.mem_cons_of_mem p hq)
  exact Keeps.change (hfill pairs m.world.store).1 fun ht =>
    (hfill pairs m.world.store).2 (hclean ht) fun p hp => hpairs p hp ht

end
end Exec
end ScriptEngine
