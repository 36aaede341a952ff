import ScriptEngine.Proofs.Machine.Effects
import ScriptEngine.Proofs.Machine.Past
import ScriptEngine.Proofs.Store.Bindings
import ScriptEngine.Proofs.Store.Changes
import ScriptEngine.Proofs.Store.Veils

/-!
# The conduct of natives

What is asked of natives. A native that only calls works on the store as value-level work does and
touches the engine in no other way than by having it call something. A proper native in addition
keeps the store clean, never crashes, and ends with a clean value or with a fault that the engine
knows.
-/

namespace ScriptEngine

namespace Fault

/-- What a proper native ends with if it fails: a fault of the engine, or an error of the host. -/
def Raisable : Fault → Prop
  | .foreign _ => True
  | f => f.Known

end Fault

/-- What the engine hands to a native that asked for a call. -/
def Store.AdmitsOutcome (s : Store) (n : NativeInfo → Prop) : Except Fault Value → Prop
  | .ok v => s.Admits n v
  | .error f => f.Known

namespace Action

/-- The action, begun in a store, touches the engine through calls only. -/
inductive CallsOnly : Store → Action → Prop
  | done {s : Store} {r : Option Value} {w : World} (h : s.Grows w.store) : CallsOnly s (.done r w)
  | fail {s : Store} {f : Fault} {w : World} (h : s.Grows w.store) : CallsOnly s (.fail f w)
  | crash {s : Store} {message : Text} {w : World} : CallsOnly s (.crash message w)
  | invoke {s : Store} {callee : Value} {args : List Value} {w : World}
    {resume : Except Fault Value → World → Action} (h : s.Grows w.store)
    (hresume : ∀ o w', CallsOnly w'.store (resume o w')) :
    CallsOnly s (.invoke callee args w resume)

/-- The action, begun in a store, touches the engine through calls only, and what it does to the
store between calls is one of the changes that `R` allows. -/
inductive Conducts (R : Store → Store → Prop) : Store → Action → Prop
  | done {s : Store} {r : Option Value} {w : World} (h : R s w.store) : Conducts R s (.done r w)
  | fail {s : Store} {f : Fault} {w : World} (h : R s w.store) : Conducts R s (.fail f w)
  | crash {s : Store} {message : Text} {w : World} : Conducts R s (.crash message w)
  | invoke {s : Store} {callee : Value} {args : List Value} {w : World}
    {resume : Except Fault Value → World → Action} (h : R s w.store)
    (hresume : ∀ o w', Conducts R w'.store (resume o w')) :
    Conducts R s (.invoke callee args w resume)

theorem CallsOnly.conducts {s : Store} {a : Action} (h : a.CallsOnly s) :
    a.Conducts Store.Grows s := by
  induction h with
  | done h => exact .done h
  | fail h => exact .fail h
  | crash => exact .crash
  | invoke h _ ih => exact .invoke h ih

/-- The action keeps the store clean and ends well, provided that calls do. -/
inductive Proper (n : NativeInfo → Prop) : Action → Prop
  | done {r : Option Value} {w : World} (hw : w.store.Clean n)
    (hr : ∀ v, r = some v → w.store.Admits n v) : Proper n (.done r w)
  | fail {f : Fault} {w : World} (hw : w.store.Clean n) (hf : f.Raisable) : Proper n (.fail f w)
  | invoke {callee : Value} {args : List Value} {w : World}
    {resume : Except Fault Value → World → Action} (hw : w.store.Clean n)
    (hcallee : w.store.Admits n callee) (hargs : ∀ v ∈ args, w.store.Admits n v)
    (hresume : ∀ o w', w.store.closures.size ≤ w'.store.closures.size → w'.store.Clean n →
      w'.store.AdmitsOutcome n o → Proper n (resume o w')) :
    Proper n (.invoke callee args w resume)

/-- The action keeps the store neat and ends with a clean value or a fault, provided that calls do. A calm
one never crashes. -/
inductive Tidy (calm strict : Prop) (n : NativeInfo → Prop) : Action → Prop
  | done {r : Option Value} {w : World} (hw : w.store.Neat strict n)
    (hr : ∀ v, r = some v → w.store.Admits n v) : Tidy calm strict n (.done r w)
  | fail {f : Fault} {w : World} (hw : w.store.Neat strict n) (hf : f.Raisable) : Tidy calm strict n (.fail f w)
  | crash {message : Text} {w : World} (h : ¬ calm) : Tidy calm strict n (.crash message w)
  | invoke {callee : Value} {args : List Value} {w : World}
    {resume : Except Fault Value → World → Action} (hw : w.store.Neat strict n)
    (hcallee : w.store.Admits n callee) (hargs : ∀ v ∈ args, w.store.Admits n v)
    (hresume : ∀ o w', w.store.closures.size ≤ w'.store.closures.size → w'.store.Neat strict n →
      w'.store.AdmitsOutcome n o → Tidy calm strict n (resume o w')) :
    Tidy calm strict n (.invoke callee args w resume)

theorem Proper.tidy {n : NativeInfo → Prop} {a : Action} (h : a.Proper n) (calm : Prop) :
    a.Tidy calm False n := by
  induction h with
  | done hw hr => exact .done (.of_clean hw) hr
  | fail hw hf => exact .fail (.of_clean hw) hf
  | invoke hw hcallee hargs _ ih =>
    exact .invoke (.of_clean hw) hcallee hargs fun o w' hle hw' ho => ih o w' hle hw'.toClean ho

end Action

namespace Library

/-- Every native of the library touches the engine through calls only. -/
def CallsOnly (l : Library) : Prop :=
  ∀ info args w, (l.behaviour info args w).CallsOnly w.store

/-- A library touches the engine through calls only if its behaviours do. -/
theorem callsOnly_of_behaviours {l : Library}
    (h : ∀ b ∈ l.behaviours, ∀ args w, (b args w).CallsOnly w.store) : l.CallsOnly := by
  intro info args w
  unfold behaviour
  cases hb : l.behaviours[info.behaviour]? with
  | some b => exact h b (Array.mem_of_getElem? hb) args w
  | none => exact .crash

theorem CallsOnly.register {l : Library} {p : Primitive} (h : l.CallsOnly)
    (hp : ∀ args w, (p.behaviour args w).CallsOnly w.store) : (l.register p).CallsOnly := by
  refine callsOnly_of_behaviours fun b hb => ?_
  rcases Array.mem_push.mp hb with hb | rfl
  · obtain ⟨i, hi, rfl⟩ := Array.getElem_of_mem hb
    intro args w
    have hbehaviour := h ⟨Text.empty, none, i⟩ args w
    unfold behaviour at hbehaviour
    rw [Array.getElem?_eq_getElem hi] at hbehaviour
    exact hbehaviour
  · exact hp

/-- Every native of the library changes the store as `R` allows, and touches the engine through
calls only. -/
def Conducts (l : Library) (R : Store → Store → Prop) : Prop :=
  ∀ info args w, (l.behaviour info args w).Conducts R w.store

theorem CallsOnly.conducts {l : Library} (h : l.CallsOnly) : l.Conducts Store.Grows :=
  fun info args w => (h info args w).conducts

/-- Natives of the library bind no names, and touch the engine through calls only. -/
def BindsNothing (l : Library) : Prop :=
  l.Conducts (Store.Rewrites fun _ => False)

/-- Every known native of the library is proper, given the arguments that its arity says. -/
def Proper (l : Library) (n : NativeInfo → Prop) : Prop :=
  ∀ info args w, n info → (∀ k, info.arity = some k → args.length = k) → w.store.Clean n →
    (∀ v ∈ args, w.store.Admits n v) → (l.behaviour info args w).Proper n

/-- Every known native of the library is tidy, given the arguments that its arity says. -/
def Tidy (l : Library) (calm strict : Prop) (n : NativeInfo → Prop) : Prop :=
  ∀ info args w, n info → (∀ k, info.arity = some k → args.length = k) → w.store.Neat strict n →
    (∀ v ∈ args, w.store.Admits n v) → (l.behaviour info args w).Tidy calm strict n

theorem Proper.tidy {l : Library} {n : NativeInfo → Prop} (h : l.Proper n) (calm : Prop) :
    l.Tidy calm False n :=
  fun info args w hinfo harity hw hargs => (h info args w hinfo harity hw.toClean hargs).tidy calm

end Library

/-!
# A native that calls

The shortest proper native that has the engine call something.
-/

namespace Native

/-- Calls its first argument with the others, and ends as that call does. -/
def relay : Primitive :=
  ⟨"relay", none, fun args w =>
    match args with
    | [] => .done none w
    | callee :: rest => .invoke callee rest w fun
      | .ok v, w => .done (some v) w
      | .error f, w => .fail f w⟩

end Native

namespace Library

/-- A library with nothing but one native that calls. -/
def relaying : Library :=
  empty.register Native.relay

theorem relaying_callsOnly : relaying.CallsOnly := by
  refine callsOnly_of_behaviours fun b hb args w => ?_
  have hb : b ∈ #[Native.relay.behaviour] := hb
  rw [List.mem_singleton.mp (List.mem_toArray.mp hb)]
  cases args with
  | nil => exact .done (.refl _)
  | cons callee rest =>
    refine .invoke (.refl _) fun o w' => ?_
    cases o with
    | ok v => exact .done (.refl _)
    | error f => exact .fail (.refl _)

theorem relaying_bindings (s : Store) :
    relaying.bindings.All (s.Admits fun info => info = ⟨"relay", none, 0⟩) :=
  Table.All.empty.insert _ rfl

theorem relaying_proper : relaying.Proper fun info => info = ⟨"relay", none, 0⟩ := by
  rintro info args w rfl - hw hargs
  show (Native.relay.behaviour args w).Proper _
  cases args with
  | nil => exact .done hw fun v hv => by cases hv
  | cons callee rest =>
    refine .invoke hw (hargs callee List.mem_cons_self)
      (fun v hv => hargs v (List.mem_cons_of_mem callee hv)) fun o w' _ hw' ho => ?_
    cases o with
    | ok v =>
      refine .done hw' fun v' hv' => ?_
      cases hv'
      exact ho
    | error f =>
      refine .fail hw' ?_
      cases f with
      | raised => exact ho
      | located => exact ho
      | foreign => exact trivial

end Library

/-!
# Natives that make up no places

Only the engine gives a fault its place and takes snapshots. A native fails with a fault of its own,
which has no place, or passes on one that a call of its own ended with; and it goes back to no other
snapshots than those it asked for. Frames that it finds it leaves as they are linked.
-/

namespace Action

/-- The action, begun in a store, was handed the faults `given` and took the snapshots `kept`, and
makes up none of either kind. -/
inductive Honest : List Fault → List Snapshot → Store → Action → Prop
  | done {given : List Fault} {kept : List Snapshot} {s : Store} {r : Option Value} {w : World}
    (h : s.Extends w.store) : Honest given kept s (.done r w)
  | raised {given : List Fault} {kept : List Snapshot} {s : Store} {f : Failure} {message : Text}
    {w : World} (h : s.Extends w.store) : Honest given kept s (.fail (.raised f message) w)
  | foreign {given : List Fault} {kept : List Snapshot} {s : Store} {message : Text} {w : World}
    (h : s.Extends w.store) : Honest given kept s (.fail (.foreign message) w)
  | passed {given : List Fault} {kept : List Snapshot} {s : Store} {f : Fault} {w : World}
    (h : s.Extends w.store) (hf : f ∈ given) : Honest given kept s (.fail f w)
  | crash {given : List Fault} {kept : List Snapshot} {s : Store} {message : Text} {w : World} :
    Honest given kept s (.crash message w)
  | invoke {given : List Fault} {kept : List Snapshot} {s : Store} {callee : Value}
    {args : List Value} {w : World} {resume : Except Fault Value → World → Action}
    (h : s.Extends w.store) (hok : ∀ v w', Honest given kept w'.store (resume (.ok v) w'))
    (herror : ∀ f w', Honest (f :: given) kept w'.store (resume (.error f) w')) :
    Honest given kept s (.invoke callee args w resume)
  | depth {given : List Fault} {kept : List Snapshot} {s : Store} {w : World}
    {resume : Nat → World → Action} (h : s.Extends w.store)
    (hresume : ∀ n, Honest given kept w.store (resume n w)) : Honest given kept s (.depth w resume)
  | save {given : List Fault} {kept : List Snapshot} {s : Store} {w : World}
    {resume : Snapshot → World → Action} (h : s.Extends w.store)
    (hresume : ∀ sn, Honest given (sn :: kept) w.store (resume sn w)) :
    Honest given kept s (.save w resume)
  | restore {given : List Fault} {kept : List Snapshot} {s : Store} {sn : Snapshot} {w : World}
    {resume : World → Action} (h : s.Extends w.store) (hsn : sn ∈ kept)
    (hresume : Honest given kept w.store (resume w)) : Honest given kept s (.restore sn w resume)

end Action

namespace Library

/-- Every native of the library is honest. -/
def Honest (l : Library) : Prop :=
  ∀ info args w, (l.behaviour info args w).Honest [] [] w.store

theorem relaying_honest : relaying.Honest := by
  intro info args w
  unfold behaviour
  cases hb : relaying.behaviours[info.behaviour]? with
  | none => exact .crash
  | some b =>
    have hb : b ∈ #[Native.relay.behaviour] := Array.mem_of_getElem? hb
    rw [List.mem_singleton.mp (List.mem_toArray.mp hb)]
    cases args with
    | nil => exact .done (Store.Grows.refl _).toExtends
    | cons callee rest =>
      refine .invoke (Store.Grows.refl _).toExtends (fun v w' => ?_) fun f w' => ?_
      · exact .done (Store.Grows.refl _).toExtends
      · exact .passed (Store.Grows.refl _).toExtends List.mem_cons_self

end Library

/-!
# Natives that keep to what they are shown

A native is discreet if, whatever is hidden from it, it does not come across what is hidden: it works
on the objects that it was given, on those that can be reached from them and on new ones, and it has
only such values called. It does so again each time that it goes on with an outcome.
-/

/-- The value of an outcome is shown. -/
def Store.ShowsOutcome (V : Veil) (s : Store) (o : Except Fault Value) : Prop :=
  ∀ v, o = .ok v → s.Shows V v

/-- The action, begun in a store, spares what is hidden and keeps to values that are shown. It does not
look into the engine. -/
inductive Action.Discreet (V : Veil) : Store → Action → Prop
  | done {s : Store} {r : Option Value} {w : World} (h : s.Spares V w.store)
    (hr : ∀ v, r = some v → w.store.Shows V v) : Discreet V s (.done r w)
  | fail {s : Store} {f : Fault} {w : World} (h : s.Spares V w.store) : Discreet V s (.fail f w)
  | crash {s : Store} {message : Text} {w : World} : Discreet V s (.crash message w)
  | invoke {s : Store} {callee : Value} {args : List Value} {w : World}
    {resume : Except Fault Value → World → Action} (h : s.Spares V w.store)
    (hcallee : w.store.Shows V callee) (hargs : ∀ v ∈ args, w.store.Shows V v)
    (hresume : ∀ o (w' : World), w.store.Spares V w'.store → w'.store.ShowsOutcome V o →
      Discreet V w'.store (resume o w')) : Discreet V s (.invoke callee args w resume)

namespace Library

/-- Every native of the library is discreet, whatever is hidden. -/
def Discreet (l : Library) : Prop :=
  ∀ V info args w, w.store.Veiled V → (∀ v ∈ args, w.store.Shows V v) →
    (l.behaviour info args w).Discreet V w.store

theorem relaying_discreet : relaying.Discreet := by
  intro V info args w hw hargs
  unfold behaviour
  cases hb : relaying.behaviours[info.behaviour]? with
  | none => exact .crash
  | some b =>
    have hb : b ∈ #[Native.relay.behaviour] := Array.mem_of_getElem? hb
    rw [List.mem_singleton.mp (List.mem_toArray.mp hb)]
    cases args with
    | nil => exact .done hw.refl fun v hv => by cases hv
    | cons callee rest =>
      refine .invoke hw.refl (hargs callee List.mem_cons_self)
        (fun v hv => hargs v (List.mem_cons_of_mem callee hv)) fun o w' hspares ho => ?_
      cases o with
      | ok v =>
        refine .done hspares.veiled.refl fun v' hv' => ?_
        cases hv'
        exact ho v rfl
      | error f => exact .fail hspares.veiled.refl

theorem relaying_bindings_shown (V : Veil) (s : Store) : relaying.bindings.Every (s.Shows V) :=
  Table.Every.empty.insert _ ⟨trivial, trivial⟩

end Library

/-!
# Natives that keep to what they are given

A native heeds scopes if everything that it makes, returns or has called is made of values in scope.
It is stateless if it does the same behind any past: nothing of what it does depends on how objects
are numbered, on objects that it was not given, or on what was printed before. Both are asked of
natives with every access to the engine that there is.
-/

/-- The value of an outcome is in scope. -/
def Store.HasOutcome (s : Store) : Except Fault Value → Prop
  | .ok v => s.Has v
  | .error _ => True

/-- The outcome with its value shifted. -/
def shiftOutcome (p : Store) : Except Fault Value → Except Fault Value
  | .ok v => .ok (v.shift p)
  | .error f => .error f

namespace Action

/-- The action, begun in a store, changes it as `R` allows and keeps to values in scope. -/
inductive Heeds (R : Store → Store → Prop) : Store → Action → Prop
  | done {s : Store} {r : Option Value} {w : World} (h : R s w.store)
    (hr : ∀ v, r = some v → w.store.Has v) : Heeds R s (.done r w)
  | fail {s : Store} {f : Fault} {w : World} (h : R s w.store) : Heeds R s (.fail f w)
  | crash {s : Store} {message : Text} {w : World} (h : R s w.store) : Heeds R s (.crash message w)
  | invoke {s : Store} {callee : Value} {args : List Value} {w : World}
    {resume : Except Fault Value → World → Action} (h : R s w.store) (hcallee : w.store.Has callee)
    (hargs : ∀ v ∈ args, w.store.Has v)
    (hresume : ∀ o (w' : World), w'.store.Scoped → w.store.Le w'.store → w'.store.HasOutcome o →
      Heeds R w'.store (resume o w')) : Heeds R s (.invoke callee args w resume)
  | depth {s : Store} {w : World} {resume : Nat → World → Action} (h : R s w.store)
    (hresume : ∀ n, Heeds R w.store (resume n w)) : Heeds R s (.depth w resume)
  | save {s : Store} {w : World} {resume : Snapshot → World → Action} (h : R s w.store)
    (hresume : ∀ sn : Snapshot, w.store.HasFrame sn.frame → Heeds R w.store (resume sn w)) :
    Heeds R s (.save w resume)
  | restore {s : Store} {sn : Snapshot} {w : World} {resume : World → Action} (h : R s w.store)
    (hframe : w.store.HasFrame sn.frame) (hresume : Heeds R w.store (resume w)) :
    Heeds R s (.restore sn w resume)

/-- The second action does behind a past what the first one does. -/
inductive Shifts (past : Past) : Action → Action → Prop
  | done {r : Option Value} {w : World} :
    Shifts past (.done r w) (.done (r.map (Value.shift past.store)) (w.shift past))
  | fail {f : Fault} {w : World} : Shifts past (.fail f w) (.fail f (w.shift past))
  | crash {message : Text} {w : World} : Shifts past (.crash message w) (.crash message (w.shift past))
  | invoke {callee : Value} {args : List Value} {w : World}
    {resume resume' : Except Fault Value → World → Action}
    (hresume : ∀ o (w' : World), w'.store.Scoped → w.store.Le w'.store → w'.store.HasOutcome o →
      Shifts past (resume o w') (resume' (shiftOutcome past.store o) (w'.shift past))) :
    Shifts past (.invoke callee args w resume)
      (.invoke (callee.shift past.store) (args.map (Value.shift past.store)) (w.shift past) resume')
  | depth {w : World} {resume resume' : Nat → World → Action}
    (hresume : ∀ n, Shifts past (resume n w) (resume' n (w.shift past))) :
    Shifts past (.depth w resume) (.depth (w.shift past) resume')
  | save {w : World} {resume resume' : Snapshot → World → Action}
    (hresume : ∀ sn : Snapshot, w.store.HasFrame sn.frame →
      Shifts past (resume sn w) (resume' (sn.shift past) (w.shift past))) :
    Shifts past (.save w resume) (.save (w.shift past) resume')
  | restore {sn : Snapshot} {w : World} {resume resume' : World → Action}
    (hresume : Shifts past (resume w) (resume' (w.shift past))) :
    Shifts past (.restore sn w resume) (.restore (sn.shift past) (w.shift past) resume')

end Action

namespace Library

/-- Every native of the library, given values in scope, changes stores as `R` allows and keeps to
values in scope. -/
def Heeds (l : Library) (R : Store → Store → Prop) : Prop :=
  ∀ info args w, w.store.Scoped → (∀ v ∈ args, w.store.Has v) →
    (l.behaviour info args w).Heeds R w.store

/-- Every native of the library, given values in scope, does the same behind any past. -/
def Stateless (l : Library) : Prop :=
  ∀ past info args w, w.store.Scoped → (∀ v ∈ args, w.store.Has v) →
    (l.behaviour info args w).Shifts past
      (l.behaviour info (args.map (Value.shift past.store)) (w.shift past))

theorem relaying_heeds {R : Store → Store → Prop} (hR : ∀ s : Store, s.Scoped → R s s) :
    relaying.Heeds R := by
  intro info args w hw hargs
  unfold behaviour
  cases hb : relaying.behaviours[info.behaviour]? with
  | none => exact .crash (hR _ hw)
  | some b =>
    have hb : b ∈ #[Native.relay.behaviour] := Array.mem_of_getElem? hb
    rw [List.mem_singleton.mp (List.mem_toArray.mp hb)]
    cases args with
    | nil => exact .done (hR _ hw) fun _ h => by cases h
    | cons callee rest =>
      refine .invoke (hR _ hw) (hargs callee List.mem_cons_self)
        (fun v hv => hargs v (List.mem_cons_of_mem callee hv)) fun o w' hw' _ ho => ?_
      cases o with
      | ok v =>
        refine .done (hR _ hw') fun v' hv' => ?_
        cases hv'
        exact ho
      | error f => exact .fail (hR _ hw')

theorem relaying_stateless : relaying.Stateless := by
  intro past info args w hw hargs
  unfold behaviour
  cases hb : relaying.behaviours[info.behaviour]? with
  | none => exact .crash
  | some b =>
    have hb : b ∈ #[Native.relay.behaviour] := Array.mem_of_getElem? hb
    rw [List.mem_singleton.mp (List.mem_toArray.mp hb)]
    cases args with
    | nil => exact .done
    | cons callee rest =>
      refine .invoke fun o w' _ _ _ => ?_
      cases o with
      | ok v => exact .done
      | error f => exact .fail

end Library
end ScriptEngine
