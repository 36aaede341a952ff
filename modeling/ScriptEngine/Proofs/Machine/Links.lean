import ScriptEngine.Proofs.Machine.Dicts
import ScriptEngine.Proofs.Machine.Moves
import ScriptEngine.Proofs.Store.Links

/-!
# Instructions build on the store

An engine with a program is always in a frame, at least as deep as there are calls in progress. That is why
a return finds a caller, why a scope that is closed lies in another frame, and why a closure is built in a
frame. Main statement: whatever instruction such an engine executes, and whether it goes on, fails or
crashes, it stays such an engine, and its store is built on the one before.
-/

namespace ScriptEngine

namespace Store

/-- The frame that an engine is in, or goes back to, is there; once a program is loaded there is one, and it
is as deep as there are calls. -/
structure Supports (s : Store) (loaded : Prop) (start : Option FrameId) (calls : Nat) : Prop where
  frame : s.HasFrame start
  deep : loaded → ∃ f, start = some f ∧ s.Deep f calls

theorem Supports.builtOn {s s' : Store} {loaded : Prop} {start : Option FrameId} {calls : Nat}
    (h : s.Supports loaded start calls) (hbuilt : s.BuiltOn s') : s'.Supports loaded start calls := by
  refine ⟨hbuilt.hasFrame h.frame, fun hloaded => ?_⟩
  obtain ⟨f, hf, hdeep⟩ := h.deep hloaded
  exact ⟨f, hf, hdeep.builtOn hbuilt⟩

theorem BuiltOn.copy (s : Store) (v : Value) : s.BuiltOn (s.copy v).2 :=
  .captures (Exec.copy_frames s v) (.copy s v)

/-- The frame of an engine that is in one. -/
theorem supports_some {s : Store} {loaded : Prop} {f : FrameId} {calls : Nat} (hf : f < s.frames.size)
    (hdeep : s.Deep f calls) : s.Supports loaded (some f) calls :=
  ⟨hasFrame_some hf, fun _ => ⟨f, rfl, hdeep⟩⟩

end Store

/-- The engine runs the program with the store, which it has lent to a native at times. -/
structure Machine.Rooted (l : Library) (p : Option Program) (s : Store) (m : Machine) : Prop where
  library : m.library = l
  program : m.program = p
  store : s.Linked
  frame : s.Supports (p ≠ none) m.frame m.calls.size

section
variable {l : Library} {p : Option Program} {s s' : Store} {m m' m'' : Machine}

namespace Machine.Rooted

/-- Operands, journal and world do not matter. -/
theorem of_same (h : m.Rooted l p s) (hbuilt : s.BuiltOn s') (hlibrary : m'.library = m.library)
    (hprogram : m'.program = m.program) (hframe : m'.frame = m.frame) (hcalls : m'.calls = m.calls) :
    m'.Rooted l p s' := by
  refine ⟨hlibrary.trans h.library, hprogram.trans h.program, h.store.builtOn hbuilt, ?_⟩
  rw [hframe, hcalls]
  exact h.frame.builtOn hbuilt

/-- The frame that an engine with a program is in. -/
theorem current {q : Program} (h : m.Rooted l (some q) s) :
    ∃ f, m.frame = some f ∧ f < s.frames.size ∧ s.Deep f m.calls.size := by
  obtain ⟨f, hf, hdeep⟩ := h.frame.deep nofun
  exact ⟨f, hf, h.frame.frame f hf, hdeep⟩

end Machine.Rooted

/-- If the first engine runs a program, so does the second, with a store that is built on the first
one's. -/
def Machine.Builds (m m' : Machine) : Prop :=
  ∀ l q, m.Rooted l (some q) m.world.store →
    m'.Rooted l (some q) m'.world.store ∧ m.world.store.BuiltOn m'.world.store

namespace Machine.Builds

theorem refl (m : Machine) : m.Builds m :=
  fun _ _ h => ⟨h, .refl _⟩

theorem trans (h : m.Builds m') (h' : m'.Builds m'') : m.Builds m'' := by
  intro l q hm
  obtain ⟨hm', hbuilt⟩ := h l q hm
  obtain ⟨hm'', hbuilt'⟩ := h' l q hm'
  exact ⟨hm'', hbuilt.trans hbuilt'⟩

theorem of_same (hbuilt : m.world.store.BuiltOn m'.world.store) (hlibrary : m'.library = m.library)
    (hprogram : m'.program = m.program) (hframe : m'.frame = m.frame) (hcalls : m'.calls = m.calls) :
    m.Builds m' :=
  fun _ _ h => ⟨h.of_same hbuilt hlibrary hprogram hframe hcalls, hbuilt⟩

theorem withStore (hbuilt : m.world.store.BuiltOn s) : m.Builds (m.withStore s) :=
  of_same hbuilt rfl rfl rfl rfl

theorem tell (m : Machine) (level : Level) (text : Machine → Text) : m.Builds (m.tell level text) := by
  unfold Machine.tell
  split
  · exact of_same (.refl _) rfl rfl rfl rfl
  · exact refl m

end Machine.Builds

namespace Exec

variable {α β : Type}

/-- Whatever comes of the work, it builds on the store. -/
def Builds (x : Exec α) (m : Machine) : Prop :=
  m.Builds (finalState (x m))

theorem Builds.bind {x : Exec α} {k : α → Exec β} (hx : Builds x m)
    (hk : ∀ a m', x m = .ok a m' → Builds (k a) m') : Builds (x >>= k) m := by
  unfold Builds at hx ⊢
  cases hrun : x m with
  | ok a m' =>
    rw [hrun] at hx
    rw [bind_of_ok hrun]
    exact hx.trans (hk a m' hrun)
  | error e m' =>
    rw [hrun] at hx
    rw [bind_of_error hrun]
    exact hx

/-- Work that builds wherever it is done, in front of other work. -/
theorem Builds.before {x : Exec α} {k : α → Exec β} (hx : Builds x m) (hk : ∀ a m', Builds (k a) m') :
    Builds (x >>= k) m :=
  hx.bind fun a m' _ => hk a m'

/-- What is read off the machine is known. -/
theorem Builds.reads {f : Machine → α} {k : α → Exec β} (h : Builds (k (f m)) m) :
    Builds (Exec.reads f >>= k) m := by
  unfold Builds at h ⊢
  rw [bind_of_ok (show Exec.reads f m = .ok (f m) m from rfl)]
  exact h

theorem Builds.change {f : Machine → Machine} (h : m.Builds (f m)) : Builds (modify f) m :=
  h

/-!
# Values
-/

theorem builds_pure (a : α) : Builds (pure a) m :=
  .refl m

theorem builds_raise (f : Failure) (message : Text) : Builds (raise f message : Exec α) m :=
  .refl m

theorem builds_crash (message : Text) : Builds (crash message : Exec α) m :=
  .refl m

theorem builds_reads (f : Machine → α) : Builds (reads f) m :=
  .refl m

theorem builds_onStore {f : Store → α × Store} (h : m.world.store.BuiltOn (f m.world.store).2) :
    Builds (onStore f) m :=
  .withStore h

/-- Changes to containers leave frames and closures. -/
theorem builds_change {f : Store → α × Store} (hframes : ∀ s : Store, (f s).2.frames = s.frames)
    (hclosures : ∀ s : Store, (f s).2.closures = s.closures) : Builds (onStore f) m :=
  builds_onStore (.of_same (hframes _) (hclosures _))

theorem builds_push (v : Value) : Builds (push v) m :=
  .of_same (.refl _) rfl rfl rfl rfl

theorem builds_pushed (v : Value) (n : Next) : Builds (push v >>= fun _ => pure n) m :=
  (builds_push v).before fun _ _ => builds_pure n

theorem builds_top : Builds top m := by
  unfold Builds top
  split <;> exact .refl m

theorem builds_pop : Builds pop m := by
  unfold Builds pop
  split
  · exact .of_same (.refl _) rfl rfl rfl rfl
  · exact .refl m

theorem builds_copy (v : Value) : Builds (copy v) m := by
  unfold Builds
  rw [copy_eq]
  exact .withStore (.copy m.world.store v)

theorem builds_typeName (v : Value) : Builds (typeName v) m :=
  builds_reads _

theorem builds_raise_typeName (v : Value) (f : Failure) (message : Text → Text) :
    Builds (typeName v >>= fun t => raise f (message t) : Exec α) m :=
  (builds_typeName v).before fun _ _ => builds_raise _ _

theorem builds_popCount : Builds popCount m := by
  refine builds_pop.before fun v m' => ?_
  cases v with
  | number x =>
    dsimp only
    split
    · exact builds_crash _
    · exact builds_pure _
  | _ => exact builds_crash _

theorem builds_checkCount (n : Int) : Builds (checkCount n) m := by
  unfold checkCount
  split
  · exact builds_crash _
  · exact builds_pure _

theorem builds_popCopies (n : Nat) (acc : List Value) : Builds (popCopies n acc) m := by
  induction n generalizing acc m with
  | zero => exact builds_pure _
  | succ n ih => exact builds_pop.before fun v _ => (builds_copy v).before fun v _ => ih _

theorem builds_popArgs : Builds popArgs m :=
  builds_popCount.before fun n _ => (builds_checkCount n).before fun n _ => builds_popCopies n []

theorem builds_condition (v : Value) : Builds (condition v) m := by
  cases v with
  | boolean b => exact builds_pure b
  | _ => exact builds_raise_typeName _ _ _

theorem builds_popItems (n : Nat) (acc : Array Value) : Builds (popItems n acc) m := by
  induction n generalizing acc m with
  | zero => exact builds_pure _
  | succ n ih => exact builds_pop.before fun v _ => (builds_copy v).before fun v _ => ih _

theorem builds_popEntries (n : Nat) (acc : Table Value) : Builds (popEntries n acc) m := by
  induction n generalizing acc m with
  | zero => exact builds_pure _
  | succ n ih =>
    refine builds_pop.before fun key _ => builds_pop.before fun v _ => (builds_copy v).before fun v _ => ?_
    cases key with
    | text k => exact ih _
    | _ => exact builds_raise _ _

theorem builds_popFields (n : Nat) (acc : List Text) : Builds (popFields n acc) m := by
  induction n generalizing acc m with
  | zero => exact builds_pure _
  | succ n ih =>
    refine builds_pop.before fun v _ => ?_
    cases v with
    | text name => exact ih _
    | _ => exact builds_crash _

theorem builds_guardOf (name : Text) (v : Value) : Builds (guardOf name v) m := by
  cases v with
  | null | type _ => exact builds_pure _
  | _ => exact builds_raise_typeName _ _ _

theorem builds_popParams (n : Nat) (acc : List Parameter) : Builds (popParams n acc) m := by
  induction n generalizing acc m with
  | zero => exact builds_pure _
  | succ n ih =>
    refine builds_pop.before fun v _ => ?_
    cases v with
    | text name => exact builds_pop.before fun g _ => (builds_guardOf name g).before fun _ _ => ih _
    | _ => exact builds_crash _

/-!
# Members and assignments
-/

/-- A method that is a closure is bound to its receiver as a new closure in the same frame. -/
theorem builds_bind (method receiver : Value) : Builds (Exec.bind method receiver) m := by
  cases method with
  | closure c =>
    unfold Exec.bind
    refine builds_onStore ?_
    cases hc : m.world.store.closure? c with
    | none => exact .refl _
    | some cl => exact .captures rfl (.newClosure hc rfl)
  | _ => exact builds_pure _

theorem builds_ownMember (object key : Value) : Builds (ownMember object key) m := by
  unfold ownMember
  split
  · exact builds_reads _
  · exact builds_reads _
  · refine (builds_reads _).before fun size _ => ?_
    split
    · exact (builds_reads _).before fun _ _ => builds_pure _
    · exact builds_raise _ _
  · exact builds_pure _

theorem builds_method (object key : Value) : Builds (method object key) m := by
  cases key with
  | text k =>
    refine (builds_reads _).before fun found _ => ?_
    cases found with
    | some v => exact (builds_bind v object).before fun _ _ => builds_pure _
    | none => exact builds_pure _
  | _ => exact builds_pure _

theorem builds_member (object key : Value) : Builds (member object key) m := by
  refine (builds_ownMember object key).before fun own _ => ?_
  cases own with
  | some v => exact builds_pure _
  | none =>
    refine (builds_method object key).before fun found _ => ?_
    cases found with
    | some v => exact builds_pure _
    | none => exact (builds_reads _).before fun _ _ => builds_raise_typeName _ _ _

theorem builds_setMember (target key value : Value) : Builds (setMember target key value) m := by
  cases target with
  | dict d =>
    cases key with
    | text k =>
      unfold setMember
      exact builds_change (fun _ => rfl) fun _ => rfl
    | _ => exact builds_raise_typeName _ _ _
  | list l =>
    refine (builds_reads _).before fun size _ => ?_
    split
    · exact builds_change (fun _ => rfl) fun _ => rfl
    · exact (builds_reads _).before fun _ _ => builds_raise _ _
  | inst i =>
    refine (builds_typeName _).before fun t _ => ?_
    cases key with
    | text k =>
      refine (builds_reads _).before fun found _ => ?_
      cases found with
      | some v => exact builds_change (fun _ => rfl) fun _ => rfl
      | none => exact builds_raise _ _
    | _ => exact (builds_reads _).before fun _ _ => builds_raise _ _
  | _ => exact builds_raise_typeName _ _ _

theorem builds_nameClosure (v : Value) (name : Text) : Builds (nameClosure v name) m := by
  cases v with
  | closure c =>
    unfold nameClosure
    refine builds_onStore (.captures rfl ?_)
    exact .modifyClosure _ c fun _ => rfl
  | _ => exact builds_pure _

theorem builds_bindName (scope : Scope) (name : Text) (v : Value) : Builds (bindName scope name v) m := by
  refine (builds_reads _).before fun frame _ => ?_
  cases frame with
  | none => exact builds_crash _
  | some f =>
    refine builds_onStore ?_
    cases scope with
    | inner => exact .define _ f name v
    | nearest => exact .setNearest _ f name v
    | outer => exact .setOuter _ f name v

theorem builds_assign (scope : Scope) : Builds (assign scope) m := by
  refine builds_pop.before fun name _ => builds_pop.before fun target _ => builds_pop.before fun value _ =>
    (builds_copy value).before fun value _ => ?_
  have hmember : ∀ m', Builds (setMember target name value >>= fun _ => push value) m' :=
    fun _ => (builds_setMember target name value).before fun _ _ => builds_push value
  cases target with
  | empty =>
    cases name with
    | text key =>
      exact (builds_nameClosure value key).before fun _ _ =>
        (builds_bindName scope key value).before fun _ _ => builds_push value
    | _ => exact builds_crash _
  | _ => exact hmember _

theorem builds_bump (name : Text) (up : Bool) : Builds (bump name up) m := by
  refine (builds_reads _).before fun found _ => ?_
  cases found with
  | none => exact builds_raise _ _
  | some found =>
    obtain ⟨v, owner⟩ := found
    cases v with
    | number x => exact builds_onStore (.define _ owner name _)
    | _ => exact builds_raise_typeName _ _ _

end Exec

/-!
# Calls and returns
-/

/-- The activation of a closure hangs on the frame that the closure was built in, and returns to the
current frame, so it is in one call more. -/
theorem Machine.Rooted.entered {c : ClosureId} {cl : Closure} (h : m.Rooted l p m.world.store)
    (hc : m.world.store.closure? c = some cl) (args : List Value) (reentry : Bool) (native : Text) :
    (m.entered cl args reentry native).Rooted l p (m.entered cl args reentry native).world.store ∧
      m.world.store.BuiltOn (m.entered cl args reentry native).world.store := by
  obtain ⟨g, hg, hlt⟩ := h.store.captured c cl hc
  have hframe := Store.newFrame_frame? m.world.store (m.callFrame cl args native)
  have hbuilt : m.world.store.BuiltOn (m.world.store.newFrame (m.callFrame cl args native)).2 := by
    refine .single ?_
    unfold Machine.callFrame
    rw [hg]
    exact .activation hlt h.frame.frame
  obtain ⟨j, hj⟩ := m.entered_eq cl args reentry native
  rw [hj]
  refine ⟨⟨h.library, h.program, h.store.builtOn hbuilt, ?_⟩, hbuilt⟩
  refine ⟨Store.hasFrame_some (Store.lt_of_frame? hframe), fun hloaded => ⟨_, rfl, ?_⟩⟩
  obtain ⟨f, hf, hdeep⟩ := h.frame.deep hloaded
  show Store.Deep _ _ (m.calls.push _).size
  rw [Array.size_push]
  exact .activation hframe hf (hdeep.builtOn hbuilt)

namespace Exec

theorem builds_enterClosure {c : ClosureId} {cl : Closure} (hc : m.world.store.closure? c = some cl)
    (args : List Value) (reentry : Bool) (native : Text) :
    Builds (enterClosure cl args reentry native) m := by
  unfold Builds
  rcases enterClosure_spec cl args reentry native m with ⟨hok, -⟩ | ⟨f, hf⟩
  · rw [hok]
    exact fun l q h => h.entered hc args reentry native
  · rw [hf]
    exact .refl m

theorem builds_callValue (callee : Value) (args : List Value) : Builds (callValue callee args) m := by
  cases callee with
  | closure c =>
    refine Builds.reads ?_
    cases hc : m.world.store.closure? c with
    | none => exact builds_crash _
    | some cl => exact (builds_enterClosure hc args false Text.empty).before fun _ _ => builds_pure _
  | native | bound | type => exact builds_pure _
  | _ => exact builds_raise_typeName _ _ _

theorem builds_dispatch (op : Text) : Builds (dispatch op) m := by
  refine builds_popArgs.before fun args _ => ?_
  cases args with
  | nil => exact builds_crash _
  | cons first rest =>
    refine Builds.before (x := operator op first) (builds_reads _) fun callee _ => ?_
    cases callee with
    | some callee => exact builds_callValue callee _
    | none =>
      refine (builds_typeName first).before fun t _ => ?_
      split
      · exact builds_raise_typeName _ _ _
      · exact builds_raise _ _

/-- As long as there is a call in progress, the current activation returns to a frame that is in one call
less. -/
theorem builds_giveBack (v : Value) : Builds (giveBack v) m := by
  intro l q h
  cases hcalls : m.calls.back? with
  | none =>
    unfold giveBack
    rw [bind_of_ok (show reads (fun m => m.calls.back?) m = .ok m.calls.back? m from rfl), hcalls]
    exact ⟨h, .refl _⟩
  | some record =>
    obtain ⟨f, hf, hlt, hdeep⟩ := h.current
    obtain ⟨b, fr, hb, hfr, hkind⟩ := h.store.boundary hlt
    have hsize : m.calls.size = m.calls.pop.size + 1 := by
      rw [Array.size_pop]
      exact (Nat.sub_add_cancel (Array.size_pos_of_mem (Array.mem_of_back? hcalls))).symm
    rw [hsize] at hdeep
    obtain ⟨g, hg, hcaller⟩ := (hdeep.boundary hb).caller hfr hkind
    have hlt' : g < m.world.store.frames.size :=
      Nat.lt_trans (h.store.callers b fr hfr g hg) (Store.lt_of_frame? hfr)
    obtain ⟨j, hj⟩ := giveBack_eq hcalls (hf ▸ hb) hfr v
    rw [hj]
    dsimp only
    rw [hg]
    split
    · exact ⟨⟨h.library, h.program, h.store, Store.supports_some hlt' hcaller⟩, .refl _⟩
    · exact ⟨⟨h.library, h.program, h.store, Store.supports_some hlt' hcaller⟩, .refl _⟩

theorem builds_ret : Builds ret m :=
  builds_pop.before fun v _ => builds_giveBack v

/-!
# Scopes and closures
-/

theorem builds_scopeEnter : Builds (step .scopeEnter) m := by
  intro l q h
  obtain ⟨f, hf, hlt, hdeep⟩ := h.current
  have hframe := Store.newFrame_frame? m.world.store ⟨Table.empty, some f, .block⟩
  have hbuilt : m.world.store.BuiltOn (m.world.store.newBlock (some f)).2 := .single (.block hlt)
  rw [step_scopeEnter, hf]
  refine ⟨⟨h.library, h.program, h.store.builtOn hbuilt, ?_⟩, hbuilt⟩
  exact Store.supports_some (Store.lt_of_frame? hframe) (.block hframe rfl rfl (hdeep.builtOn hbuilt))

/-- A block is not a root, so closing it leads to another frame. -/
theorem builds_scopeExit : Builds (step .scopeExit) m := by
  refine Builds.reads ?_
  cases hfound : m.frame.bind fun f => m.world.store.frame? f with
  | none => exact builds_crash _
  | some fr =>
    obtain ⟨f, hf, hfr⟩ := Option.bind_eq_some_iff.mp hfound
    dsimp only
    split
    · exact builds_crash _
    · rename_i hboundary
      have hkind : fr.isBoundary = false := Bool.eq_false_iff.mpr hboundary
      refine Builds.before (.change fun l q h => ⟨?_, .refl _⟩) fun _ _ => builds_pure _
      obtain ⟨f', hf', -, hdeep⟩ := h.current
      rw [hf] at hf'
      cases hf'
      obtain ⟨g, hg⟩ := h.store.outer_of_block hfr hkind
      have hlt : g < m.world.store.frames.size :=
        Nat.lt_trans (h.store.outer f fr hfr g hg) (Store.lt_of_frame? hfr)
      refine ⟨h.library, h.program, h.store, ?_⟩
      rw [hg]
      exact Store.supports_some hlt (hdeep.outer hfr hkind hg)

/-- A closure is built in the current frame. -/
theorem builds_buildClosure : Builds buildClosure m := by
  refine builds_popCount.before fun n _ => (builds_checkCount n).before fun n _ =>
    (builds_popParams n []).before fun params m' => Builds.reads (Builds.reads ?_)
  intro l q h
  obtain ⟨f, hf, hlt, -⟩ := h.current
  have hbuilt : m'.world.store.BuiltOn
      (m'.world.store.newClosure ⟨m'.ip + 1, m'.frame, params, Text.empty, none⟩).2 :=
    .single (.closure hf hlt)
  exact ⟨h.of_same hbuilt rfl rfl rfl rfl, hbuilt⟩

/-- Whatever instruction an engine executes, it builds on the store. -/
theorem builds_step (op : Op) : Builds (step op) m := by
  cases op with
  | push v => exact builds_pushed v _
  | buildList =>
    exact builds_popCount.before fun n _ => (builds_checkCount n).before fun n _ =>
      (builds_popItems n #[]).before fun items _ =>
        (builds_change (fun _ => rfl) fun _ => rfl).before fun id _ => builds_pushed _ _
  | buildDict =>
    exact builds_popCount.before fun n _ => (builds_popEntries _ _).before fun entries _ =>
      (builds_change (fun _ => rfl) fun _ => rfl).before fun id _ => builds_pushed _ _
  | buildType name =>
    exact builds_popCount.before fun n _ => (builds_checkCount n).before fun n _ =>
      (builds_popFields n []).before fun fields _ => builds_pushed _ _
  | buildFunc d => exact builds_buildClosure.before fun c _ => builds_pushed c _
  | jump d => exact builds_pure _
  | jumpPeek expected d =>
    exact builds_top.before fun v _ => (builds_condition v).before fun b _ => builds_pure _
  | jumpIfFalse d =>
    exact builds_pop.before fun v _ => (builds_condition v).before fun b _ => builds_pure _
  | call =>
    exact builds_pop.before fun callee _ => builds_popArgs.before fun args _ =>
      builds_callValue callee args
  | dispatch op => exact builds_dispatch op
  | ret => exact builds_ret
  | getVar name =>
    refine (builds_reads _).before fun found _ => ?_
    cases found with
    | some v => exact builds_pushed v _
    | none => exact builds_raise _ _
  | getMember =>
    exact builds_pop.before fun key _ => builds_pop.before fun object _ =>
      (builds_member object key).before fun v _ => builds_pushed v _
  | assign scope => exact (builds_assign scope).before fun _ _ => builds_pure _
  | bump name up => exact (builds_bump name up).before fun _ _ => builds_pure _
  | negate =>
    refine builds_pop.before fun v _ => ?_
    cases v with
    | number x => exact builds_pushed _ _
    | _ => exact builds_raise_typeName _ _ _
  | not =>
    exact builds_pop.before fun v _ => (builds_condition v).before fun b _ => builds_pushed _ _
  | stray again => exact builds_raise _ _
  | scopeEnter => exact builds_scopeEnter
  | scopeExit => exact builds_scopeExit
  | pop => exact builds_pop.before fun _ _ => builds_pure _
  | unknown b => exact builds_crash _

end Exec

end
end ScriptEngine
