import ScriptEngine.Proofs.Compiler.Sections
import ScriptEngine.Proofs.Machine.Places
import ScriptEngine.Proofs.Machine.Veiled

/-!
# Runs that spare what is hidden

What one transition keeps to, a whole run does. A name is bound in three instructions: a marker is
pushed, then the name, then the assignment takes both with the value below them. In between the marker
is an operand, which no other instruction takes. Of the work that waits below some depth nothing is said:
a stretch of a run that does not get there spares what is hidden whatever waits.
-/

namespace ScriptEngine

variable {V : Veil} {bottom : List Pending}

/-- The work keeps to what it is shown when it goes on. -/
def Pending.Veiled (V : Veil) (s : Store) : Pending → Prop
  | .native _ _ resume => ∃ s₀ : Store, s₀.Spares V s ∧ ∀ o (w : World), s₀.Spares V w.store →
      w.store.ShowsOutcome V o → (resume o w).Discreet V w.store
  | .construct i => s.Shows V (.inst i)
  | _ => True

/-- All work above some keeps to what it is shown. -/
inductive Pending.Above (V : Veil) (s : Store) (bottom : List Pending) : List Pending → Prop
  | base : Above V s bottom bottom
  | cons {work : Pending} {rest : List Pending} (h : work.Veiled V s) (hrest : Above V s bottom rest) :
    Above V s bottom (work :: rest)

/-- What the engine does next it does with values that are shown. -/
def Mode.Shown (V : Veil) (s : Store) : Mode → Prop
  | .running => True
  | .invoking callee args => s.Shows V callee ∧ ∀ v ∈ args, s.Shows V v
  | .delivering o => s.ShowsOutcome V o

/-- No operand is hidden but for the marker and the name of a binding that is under way. -/
inductive Machine.Binds (V : Veil) (ops : Array Op) (i : Nat) (m : Machine) : Prop
  | none (h : m.Veiled V)
  | marked {rest : List Value} {name : Text} {scope : Scope} (h : m.Stacks (.empty :: rest))
    (hm : (m.leaving rest).Veiled V) (hname : m.MayBind V scope name)
    (htext : ops[i]? = some (.push (.text name))) (hassign : ops[i + 1]? = some (.assign scope))
  | named {rest : List Value} {name : Text} {scope : Scope}
    (h : m.Stacks (.text name :: .empty :: rest)) (hm : (m.leaving rest).Veiled V)
    (hname : m.MayBind V scope name) (hassign : ops[i]? = some (.assign scope))

/-- At the position a name is bound that may be. -/
def Machine.BindsAt (V : Veil) (m : Machine) (ops : Array Op) (i : Nat) : Prop :=
  ops[i]? = some (.push .empty) ∧ ∃ name scope, m.MayBind V scope name ∧
    ops[i + 1]? = some (.push (.text name)) ∧ ops[i + 2]? = some (.assign scope)

/-- Nothing hidden is met with in the state, whatever waits below. -/
structure State.Veiled (V : Veil) (bottom : List Pending) (s : State) : Prop where
  machine : match s.mode with
    | .running => s.machine.Binds V s.machine.ops s.machine.ip.toNat
    | _ => s.machine.Veiled V
  pending : Pending.Above V s.machine.world.store bottom s.pending
  mode : s.mode.Shown V s.machine.world.store

/-- The state comes out of the engine by work that spares what is hidden. -/
structure State.Spares (V : Veil) (bottom : List Pending) (m : Machine) (s : State) : Prop where
  veiled : s.Veiled V bottom
  store : m.world.store.Spares V s.machine.world.store
  root : s.machine.root = m.root

/-- The transition spares what is hidden, or ends the run. -/
def Advance.Spares (V : Veil) (bottom : List Pending) (m : Machine) : Advance → Prop
  | .next s => s.Spares V bottom m
  | _ => True

section
variable {m m' : Machine} {pending : List Pending} {s : State}

theorem Pending.Veiled.spares {work : Pending} {s s' : Store} (h : work.Veiled V s)
    (hs : s.Spares V s') : work.Veiled V s' := by
  cases work with
  | native info sn resume =>
    obtain ⟨s₀, hs₀, hresume⟩ := h
    exact ⟨s₀, hs₀.trans hs, hresume⟩
  | construct i => exact hs.shows h
  | _ => trivial

theorem Pending.Above.spares {l : List Pending} {s s' : Store} (h : Pending.Above V s bottom l)
    (hs : s.Spares V s') : Pending.Above V s' bottom l := by
  induction h with
  | base => exact .base
  | cons h _ ih => exact .cons (h.spares hs) ih

theorem Machine.Binds.store {ops : Array Op} {i : Nat} (h : m.Binds V ops i) :
    m.world.store.Veiled V := by
  cases h with
  | none h => exact h.store
  | marked _ hm => exact hm.store
  | named _ hm => exact hm.store

theorem Machine.Binds.same {ops : Array Op} {i : Nat} (h : m.Binds V ops i)
    (hstore : m'.world.store = m.world.store) (hlibrary : m'.library = m.library)
    (hstack : m'.stack = m.stack) (hframe : m'.frame = m.frame) : m'.Binds V ops i := by
  have hveiled : ∀ {a b : Machine}, a.Veiled V → b.world.store = a.world.store →
      b.library = a.library → b.stack = a.stack → b.Veiled V := by
    intro a b h hstore hlibrary hstack
    refine ⟨?_, ?_, ?_, ?_⟩
    · rw [hstore]
      exact h.store
    · rw [hstore, hlibrary]
      exact h.bindings
    · rw [hstack]
      exact h.backed
    · rw [hstore, hstack]
      exact h.operands
  have hleaving : ∀ rest : List Value, (m'.leaving rest).stack = (m.leaving rest).stack :=
    fun rest => congrArg (·.cut rest.length) hstack
  have hframes : m'.world.store.frames = m.world.store.frames := congrArg Store.frames hstore
  cases h with
  | none h => exact .none (hveiled h hstore hlibrary hstack)
  | marked h hm hname htext hassign =>
    exact .marked ⟨hstack ▸ h.backed, hstack ▸ h.items⟩
      (hveiled hm hstore hlibrary (hleaving _)) (hname.same hframe hframes) htext hassign
  | named h hm hname hassign =>
    exact .named ⟨hstack ▸ h.backed, hstack ▸ h.items⟩
      (hveiled hm hstore hlibrary (hleaving _)) (hname.same hframe hframes) hassign

theorem Advance.Spares.of_same {a : Advance} (h : a.Spares V bottom m')
    (hstore : m'.world.store = m.world.store) (hroot : m'.root = m.root) : a.Spares V bottom m := by
  cases a with
  | next s => exact ⟨h.veiled, hstore ▸ h.store, h.root.trans hroot⟩
  | _ => trivial

/-- The store of a state without hidden operands is veiled. -/
theorem State.Veiled.store (h : s.Veiled V bottom) : s.machine.world.store.Veiled V := by
  obtain ⟨m, pending, mode⟩ := s
  cases mode with
  | running => exact Machine.Binds.store h.machine
  | invoking => exact Machine.Veiled.store h.machine
  | delivering => exact Machine.Veiled.store h.machine

/-!
# Instructions
-/

theorem spares_next {mode : Mode} (hm : m.Spares V m') (hmode : mode.Shown V m'.world.store)
    (hpending : Pending.Above V m'.world.store bottom pending) : State.Spares V bottom m ⟨m', pending, mode⟩ := by
  refine ⟨⟨?_, hpending, hmode⟩, hm.store, hm.root⟩
  cases mode with
  | running => exact .none hm.veiled
  | _ => exact hm.veiled

section
variable (hpending : Pending.Above V m.world.store bottom pending)
include hpending

theorem spares_proceed {n : Exec.Next} (hm : m.Spares V m')
    (hn : n.Shown V m'.world.store) :
    Advance.Spares V bottom m (State.proceed pending n m') := by
  have hmoved : ∀ ip, m.Spares V { m' with ip := ip } :=
    fun ip => hm.trans (hm.veiled.of_same rfl rfl rfl rfl)
  have hkept := hpending.spares hm.store
  cases n with
  | next => exact spares_next (hmoved _) trivial hkept
  | skip d => exact spares_next (hmoved _) trivial hkept
  | stay => exact spares_next hm trivial hkept
  | call callee args => exact spares_next hm hn (.cons trivial hkept)
  | done v =>
    refine spares_next hm (fun v' hv' => ?_) hkept
    cases hv'
    exact hn

/-- A fault goes to the work that waits. -/
theorem spares_faulty {f : Fault} (hm : m.Spares V m') :
    State.Spares V bottom m ⟨m', pending, .delivering (.error f)⟩ :=
  spares_next hm (fun _ h => by cases h) (hpending.spares hm.store)

theorem spares_after {x : Exec Exec.Next}
    (h : Exec.Spares V x m fun n m' => n.Shown V m'.world.store) :
    Advance.Spares V bottom m (State.after pending (x m)) := by
  unfold Exec.Spares at h
  cases hrun : x m with
  | ok n m' =>
    rw [hrun] at h
    exact spares_proceed hpending h.1 h.2
  | error e m' =>
    rw [hrun] at h
    cases e with
    | fault f => exact spares_faulty hpending (h.trans (h.veiled.of_same rfl rfl rfl rfl))
    | crash message => trivial

end

/-- The computation only sees part of the engine. -/
theorem Exec.Spares.of_eq {α : Type} {x y : Exec α} {P : α → Machine → Prop} (hrun : x m = y m')
    (hstore : m'.world.store = m.world.store) (hroot : m'.root = m.root)
    (h : Exec.Spares V y m' P) : Exec.Spares V x m P := by
  have hfrom : ∀ {m''}, m'.Spares V m'' → m.Spares V m'' :=
    fun h => ⟨h.veiled, hstore ▸ h.store, h.root.trans hroot⟩
  unfold Exec.Spares at h ⊢
  rw [hrun]
  split at h
  · exact ⟨hfrom h.1, h.2⟩
  · exact hfrom h

/-- The assignment to a name takes the marker, the name and the value, and binds the name. -/
theorem Exec.spares_assignName {rest : List Value} {name : Text} {scope : Scope}
    (h : m.Stacks (.text name :: .empty :: rest)) (hm : (m.leaving rest).Veiled V)
    (hname : m.MayBind V scope name) :
    Exec.Spares V (Exec.step (.assign scope)) m fun n m' => n.Shown V m'.world.store := by
  have htarget : (m.leaving (.empty :: rest)).Stacks (.empty :: rest) :=
    Machine.Stacks.leaving (l := [.text name]) h
  have hrun : Exec.step (.assign scope) m =
      (Exec.pop >>= fun v => (Exec.copy v >>= fun value => Exec.nameClosure value name >>= fun _ =>
        Exec.bindName scope name value >>= fun _ => Exec.push value) >>= fun _ => pure .next)
        (m.leaving rest) := by
    show (Exec.assign scope >>= fun _ => pure Exec.Next.next) m = _
    unfold Exec.assign
    rw [Exec.bind_assoc, Exec.bind_of_ok (Exec.pop_eq h), Exec.bind_assoc,
      Exec.bind_of_ok (Exec.pop_eq htarget), Exec.bind_assoc]
    rfl
  refine Exec.Spares.of_eq hrun rfl rfl ((Exec.spares_pop hm).bind ?_)
  rintro v _ h₁ ⟨rfl, hv⟩
  have hname : Machine.MayBind V ((m.leaving rest).withStack (m.leaving rest).stack.drop) scope name := hname
  exact (Exec.spares_bindValue h₁.veiled hv hname).bind fun _ _ h₂ _ => .pure h₂.veiled trivial

/-- What the machine with another operand holds is what it held. -/
theorem Machine.Veiled.below {l rest : List Value} (h : (m.leaving rest).Veiled V)
    (hstacks : m.Stacks (l ++ rest)) (v : Value) :
    ((m.withStack (m.stack.push v)).leaving rest).Veiled V := by
  have hbottom := Machine.Stacks.leaving (l := v :: l) (hstacks.push v)
  refine ⟨h.store, h.bindings, hbottom.backed, fun w hw => h.operands w ?_⟩
  rw [hbottom.items] at hw
  rw [hstacks.leaving.items]
  exact hw

/-- An instruction that heeds the veil or is part of a binding. -/
theorem spares_instruction {i : Nat} {op : Op} (hbinds : m.Binds V m.ops i)
    (hpending : Pending.Above V m.world.store bottom pending) (hip : m.ip = i) (hop : m.ops[i]? = some op)
    (huses : op.Heeds V m ∨ m.BindsAt V m.ops i) (hdeep : ∀ record ∈ m.calls, record.depth ≤ m.stack.height) :
    Advance.Spares V bottom m (State.after pending (Exec.step op m)) := by
  have hpushed : ∀ v, (m.withStack (m.stack.push v)).Binds V m.ops (i + 1) →
      State.Spares V bottom m
        ⟨{ m.withStack (m.stack.push v) with ip := m.ip + 1 }, pending, .running⟩ := by
    intro v h
    refine ⟨⟨?_, hpending, trivial⟩, hbinds.store.refl, rfl⟩
    show Machine.Binds V m.ops (m.ip + 1).toNat _
    rw [show (m.ip + 1).toNat = i + 1 by rw [hip]; rfl]
    exact h.same rfl rfl rfl rfl
  cases hbinds with
  | none hm =>
    rcases huses with hheeds | ⟨hmarker, name, scope, hname, htext, hassign⟩
    · exact spares_after hpending (Exec.spares_step hm hheeds hdeep)
    · rw [hop] at hmarker
      cases hmarker
      have hstacks : m.Stacks m.stack.items := ⟨hm.backed, rfl⟩
      have hself : (m.leaving m.stack.items).Veiled V := by
        rw [hstacks.leaving_self]
        exact hm
      exact hpushed .empty (.marked (hstacks.push .empty)
        (hself.below (l := []) hstacks .empty) (hname.same rfl rfl) htext hassign)
  | @marked rest name scope hstacks hm hname htext hassign =>
    rw [hop] at htext
    cases htext
    exact hpushed (.text name) (.named (hstacks.push (.text name))
      (hm.below (l := [.empty]) hstacks (.text name)) (hname.same rfl rfl) hassign)
  | @named rest name scope hstacks hm hname hassign =>
    rw [hop] at hassign
    cases hassign
    exact spares_after hpending (Exec.spares_assignName hstacks hm hname)

/-- The current instruction. -/
theorem spares_execute {i : Nat} {p : Program} (h : State.Veiled V bottom ⟨m, pending, .running⟩)
    (hp : m.program = some p) (hsize : m.ops.size = p.size) (hip : m.ip = i)
    (huses : ∀ op, m.ops[i]? = some op → op.Heeds V m ∨ m.BindsAt V m.ops i)
    (hdeep : ∀ record ∈ m.calls, record.depth ≤ m.stack.height) :
    Advance.Spares V bottom m (State.execute m pending) := by
  have hbinds : m.Binds V m.ops i := by
    have hmachine := h.machine
    rw [show i = m.ip.toNat by rw [hip]; rfl]
    exact hmachine
  rcases Nat.lt_or_ge i p.size with hlt | hge
  · have hop : m.ops[i]? = some m.ops[i] := Array.getElem?_eq_getElem (hsize.symm ▸ hlt)
    obtain ⟨j, hj⟩ := State.execute_eq hp hip hlt hop pending
    have htold : (m.withJournal j).Binds V m.ops i := hbinds.same rfl rfl rfl rfl
    have hpending : Pending.Above V (m.withJournal j).world.store bottom pending := h.pending
    have huses : m.ops[i].Heeds V (m.withJournal j) ∨ (m.withJournal j).BindsAt V m.ops i := huses _ hop
    have hspares := spares_instruction htold hpending hip hop huses hdeep
    rw [hj]
    exact hspares.of_same rfl rfl
  · have hnone : m.ops[i]? = none := Array.getElem?_eq_none (hsize.symm ▸ hge)
    have hm : m.Veiled V := by
      cases hbinds with
      | none h => exact h
      | marked _ _ _ htext =>
        rw [hnone] at htext
        cases htext
      | named _ _ _ hassign =>
        rw [hnone] at hassign
        cases hassign
    have hend : (p.size : Int) ≤ m.ip := by omega
    unfold State.execute
    simp only [hp, hend, if_true]
    split
    · refine spares_next hm.refl (fun v hv => ?_) h.pending
      cases hv
      exact ⟨trivial, trivial⟩
    · exact spares_faulty h.pending hm.refl

/-!
# Calls and outcomes
-/

section
variable (hm : m.Veiled V) (hpending : Pending.Above V m.world.store bottom pending)
include hm hpending

theorem spares_refuse {f : Failure} {message : Text} :
    Advance.Spares V bottom m (State.refuse m pending f message) :=
  spares_faulty hpending hm.refl

omit hm in
theorem spares_deliver {v : Value} (hm' : m.Spares V m') (hv : m'.world.store.Shows V v) :
    Advance.Spares V bottom m (State.deliver m' pending (.ok v)) := by
  refine spares_next hm' (fun w hw => ?_) (hpending.spares hm'.store)
  cases hw
  exact hv

theorem spares_restored {sn : Snapshot} {f : Fault} :
    Advance.Spares V bottom m (if m.covers sn then
      State.deliver (m.restore sn) pending (.error f) else .crashed Machine.restoreCrash m) := by
  split
  · rename_i hcovers
    unfold Machine.covers at hcovers
    simp only [Bool.and_eq_true, decide_eq_true_eq] at hcovers
    have hcut := hm.cut hcovers.1.1
    exact spares_faulty hpending (hcut.trans (hcut.veiled.of_same rfl rfl rfl rfl))
  · trivial

/-- A native at work, of which the journal may be told when it fails. -/
theorem spares_handOver {info : NativeInfo} {sn : Snapshot} {action : World → Action}
    (hheight : sn.stack ≤ m.stack.height) (haction : (action m.world).Discreet V m.world.store) :
    Advance.Spares V bottom m (State.handOver m pending info sn action) := by
  unfold State.handOver
  dsimp only
  generalize action m.world = act at haction
  cases haction with
  | @done _ result w hw hresult =>
    have hm' : m.Spares V { m with world := w, natives := m.natives.pop } := hm.worked hw rfl rfl rfl
    refine spares_deliver hpending hm' ?_
    cases result with
    | none => exact ⟨trivial, trivial⟩
    | some v => exact hresult v rfl
  | @fail _ f w hw =>
    show Advance.Spares V bottom _ (State.failNative { m with world := w } pending info sn f)
    have hm' : m.Spares V { m with world := w } := hm.worked hw rfl rfl rfl
    rcases State.failNative_cases { m with world := w } pending info sn f with ⟨j, hj⟩ | hj
    · rw [hj]
      have hcut := hm'.trans (hm'.veiled.cut hheight)
      exact spares_faulty hpending (hcut.trans (hcut.veiled.of_same rfl rfl rfl rfl))
    · rw [hj]
      trivial
  | crash => trivial
  | @invoke _ callee args w resume hw hcallee hargs hresume =>
    have hm' : m.Spares V { m with world := w } := hm.worked hw rfl rfl rfl
    exact spares_next hm' ⟨hcallee, hargs⟩
      (.cons ⟨w.store, hw.veiled.refl, hresume⟩ (hpending.spares hm'.store))

theorem spares_startNative {info : NativeInfo} {receiver : Option Value} {args : List Value}
    (hlibrary : m.library.Discreet)
    (hargs : ∀ v ∈ Exec.withReceiver receiver args, m.world.store.Shows V v) :
    Advance.Spares V bottom m (State.startNative m pending info receiver args) := by
  have henter : Advance.Spares V bottom m
      (State.enterNative m pending info (Exec.withReceiver receiver args)) := by
    unfold State.enterNative
    split
    · exact spares_refuse hm hpending
    · have hm' : m.Spares V { m with natives := m.natives.push info.name } :=
        hm.of_same rfl rfl rfl rfl
      exact (spares_handOver hm'.veiled hpending (Nat.le_refl m.stack.height)
        (hlibrary V info _ m.world hm.store hargs)).of_same rfl rfl
  unfold State.startNative
  dsimp only
  split
  · split
    · exact spares_refuse hm hpending
    · exact henter
  · exact henter

omit hm in
theorem spares_manage {w : Pending} {callee : Value} {args : List Value} (hm' : m.Spares V m')
    (hw : w.Veiled V m'.world.store) (hcallee : m'.world.store.Shows V callee)
    (hargs : ∀ v ∈ args, m'.world.store.Shows V v) :
    Advance.Spares V bottom m (State.manage m' pending w callee args) := by
  have hnatives : m.Spares V { m' with natives := m'.natives.push Text.empty } :=
    hm'.trans (hm'.veiled.of_same rfl rfl rfl rfl)
  exact spares_next hnatives ⟨hcallee, hargs⟩ (.cons hw (hpending.spares hm'.store))

theorem spares_startConversion {t : TypeInfo} {args : List Value}
    (hargs : ∀ v ∈ args, m.world.store.Shows V v) :
    Advance.Spares V bottom m (State.startConversion m pending t args) := by
  unfold State.startConversion
  split
  · rename_i v
    have hv := hargs v List.mem_cons_self
    split
    · rename_i method hmethod
      exact spares_manage hpending hm.refl trivial (hm.resolveMethod hv.has hmethod) hargs
    · have hconvert := Exec.spares_convert hm hv t.name
      unfold State.convertValue
      unfold Exec.Spares at hconvert
      cases hrun : Exec.effect (Native.convert v t.name) m with
      | ok a m' =>
        rw [hrun] at hconvert
        exact spares_deliver hpending hconvert.1 hconvert.2
      | error e m' =>
        rw [hrun] at hconvert
        cases e with
        | crash message => trivial
        | fault f => exact spares_faulty hpending hconvert
  · exact spares_refuse hm hpending

theorem spares_startConstruction {t : TypeInfo} {args : List Value} (ht : t.name.isEmpty = false)
    (hargs : ∀ v ∈ args, m.world.store.Shows V v) :
    Advance.Spares V bottom m (State.startConstruction m pending t args) := by
  have honStore : Exec.onStore (fun s => s.newInstance t) m =
      .ok (m.world.store.newInstance t).1 (m.withStore (m.world.store.newInstance t).2) := rfl
  have hnew := hm.withStore (hm.store.newInstance ht)
  have hi : (m.world.store.newInstance t).2.Shows V (.inst (m.world.store.newInstance t).1) :=
    ⟨Store.size_lt_push _ _, hm.store.not_hidden (Nat.lt_irrefl _)⟩
  have hargs' : ∀ v ∈ args, (m.world.store.newInstance t).2.Shows V v :=
    fun v hv => hnew.shows (hargs v hv)
  unfold State.startConstruction
  rw [honStore]
  dsimp only
  split
  · rename_i constructor hconstructor
    refine spares_manage hpending hnew hi ?_ fun v hv => ?_
    · exact hnew.veiled.resolveMember ht hconstructor
    · rcases List.mem_cons.mp hv with rfl | hv
      · exact hi
      · exact hargs' v hv
  · split
    · exact spares_deliver hpending hnew hi
    · split
      · have hpairs : ∀ e ∈ t.fields.zip args, (m.world.store.newInstance t).2.Shows V e.2 :=
          fun e he => hargs' e.2 (List.of_mem_zip he).2
        have hfill := hnew.veiled.store.fill hi hpairs
        exact spares_deliver hpending (hnew.trans (hnew.veiled.withStore hfill)) (hfill.shows hi)
      · exact spares_faulty hpending hnew

theorem spares_startNested {c : ClosureId} {cl : Closure} {args : List Value}
    (hcl : m.world.store.closure? c = some cl) (hargs : ∀ v ∈ args, m.world.store.Shows V v) :
    Advance.Spares V bottom m (State.startNested m pending cl args) := by
  unfold State.startNested
  dsimp only
  rcases Exec.enterClosure_spec cl args true (m.natives.back?.getD Text.empty) m with ⟨hok, -⟩ | ⟨f, hf⟩
  · rw [hok]
    have hentered := hm.entered (Exec.shows_withReceiver hm hcl hargs) true (m.natives.back?.getD Text.empty)
    exact spares_next hentered trivial (.cons trivial (hpending.spares hentered.store))
  · rw [hf]
    exact spares_restored hm hpending

theorem spares_invoke {callee : Value} {args : List Value} (hlibrary : m.library.Discreet)
    (hcallee : m.world.store.Shows V callee) (hargs : ∀ v ∈ args, m.world.store.Shows V v) :
    Advance.Spares V bottom m (State.invoke m pending callee args) := by
  cases callee with
  | closure c =>
    unfold State.invoke
    dsimp only
    cases hcl : m.world.store.closure? c with
    | some cl => exact spares_startNested hm hpending hcl hargs
    | none => trivial
  | native info => exact spares_startNative hm hpending hlibrary hargs
  | bound info receiver =>
    refine spares_startNative hm hpending hlibrary fun v hv => ?_
    rcases List.mem_cons.mp hv with rfl | hv
    · exact ⟨hcallee.has, hcallee.shown⟩
    · exact hargs v hv
  | type t =>
    unfold State.invoke
    dsimp only
    split
    · rename_i hrecord
      exact spares_startConstruction hm hpending (hcallee.shown hrecord) hargs
    · exact spares_startConversion hm hpending hargs
  | _ => exact spares_refuse hm hpending

end

/-- An outcome arrives at the work that waits for it. -/
theorem spares_handOut {o : Except Fault Value} (hm : m.Veiled V)
    (hpending : Pending.Above V m.world.store bottom pending) (hbottom : pending = bottom → bottom = [])
    (ho : m.world.store.ShowsOutcome V o)
    (hheight : ∀ info sn resume rest, pending = .native info sn resume :: rest →
      sn.stack ≤ m.stack.height) :
    Advance.Spares V bottom m (State.handOut m pending o) := by
  cases hpending with
  | base =>
    rw [hbottom rfl]
    trivial
  | @cons work rest hwork hrest =>
    cases work with
    | nested sn =>
      cases o with
      | ok v => exact spares_deliver hrest (hm.of_same rfl rfl rfl rfl) (ho v rfl)
      | error f => exact spares_restored hm hrest
    | native info sn resume =>
      obtain ⟨s₀, hs₀, hresume⟩ := hwork
      exact spares_handOver hm hrest (hheight info sn resume rest rfl) (hresume o m.world hs₀ ho)
    | construct i =>
      cases o with
      | ok v => exact spares_deliver hrest (hm.of_same rfl rfl rfl rfl) hwork
      | error f => exact spares_faulty hrest (hm.of_same rfl rfl rfl rfl)
    | convert =>
      cases o with
      | ok v => exact spares_deliver hrest (hm.of_same rfl rfl rfl rfl) (ho v rfl)
      | error f => exact spares_faulty hrest (hm.of_same rfl rfl rfl rfl)
    | instruction =>
      cases o with
      | ok v =>
        have hpushed := hm.push (ho v rfl)
        exact spares_next (hpushed.trans (hpushed.veiled.of_same rfl rfl rfl rfl)) trivial
          (hrest.spares hpushed.store)
      | error f => exact spares_faulty hrest (hm.of_same rfl rfl rfl rfl)

end

/-- One transition of a run that is in order, at an instruction that heeds the veil or is part of a binding,
and that does not touch the work below. -/
theorem State.Veiled.advance {r : Regime} {s : State} (h : s.Veiled V bottom) (hr : r.Valid)
    (hfloor : r.floor = none) (horder : InOrder r s) (hlibrary : r.library.Discreet)
    (huses : s.mode = .running → ∀ (i : Nat) op, s.machine.ip = i → r.ops[i]? = some op →
      op.Heeds V s.machine ∨ s.machine.BindsAt V r.ops i)
    (hbottom : s.mode ≠ .running → s.pending = bottom → bottom = []) : s.advance.Spares V bottom s.machine := by
  have hdeep := horder.deep hfloor
  have hsane := horder.sane
  cases horder with
  | @running m pending g b inCall i hm hs hq hip =>
    refine spares_execute h hm.runs (hm.decoded ▸ hr.size.symm) hip ?_ hdeep
    rw [hm.decoded]
    exact fun op hop => huses rfl i op hip hop
  | invoking hm => exact spares_invoke h.machine h.pending (hm.table ▸ hlibrary) h.mode.1 h.mode.2
  | @settled m pending o hm hs =>
    refine spares_handOut h.machine h.pending (hbottom Mode.noConfusion) h.mode fun info sn resume rest hpending => ?_
    rw [hpending] at hs
    generalize hq : m.posture = q at hs
    cases hs with
    | floor h =>
      rw [hfloor] at h
      cases h
    | @native _ q =>
      have hstack : m.stack.items = q.stack := congrArg Posture.stack hq
      show q.stack.length ≤ m.stack.height
      rw [← OperandStack.length_items hm.backed, hstack]
  | returned => exact spares_handOut h.machine h.pending (hbottom Mode.noConfusion) h.mode fun _ _ _ _ h => by cases h
  | ended => trivial
  | @broken m pending g b inCall f hm hs =>
    refine spares_handOut h.machine h.pending (hbottom Mode.noConfusion) h.mode fun info sn resume rest hpending => ?_
    rcases hs.unwind fun _ => Regime.floor_ne hfloor _ with ⟨rfl, -⟩ | ⟨q, rest', rfl, -⟩
    · cases hpending
    · cases hpending

/-- A run begins without operands. -/
theorem Machine.start_veiled {m : Machine} {p : Program}
    (hstore : (m.world.store.newRoot m.options.rootName).2.Veiled V)
    (hbindings : m.library.bindings.Every ((m.world.store.newRoot m.options.rootName).2.Shows V)) :
    (m.start p).Veiled V [] := by
  obtain ⟨j, hj⟩ := m.loaded_eq p
  refine ⟨.none ⟨?_, ?_, ?_, ?_⟩, .base, trivial⟩
  · show (m.loaded p).world.store.Veiled _
    rw [hj]
    exact hstore
  · show (m.loaded p).library.bindings.Every ((m.loaded p).world.store.Shows _)
    rw [hj]
    exact hbindings
  · show (m.loaded p).stack.Backed
    rw [hj]
    exact OperandStack.backed_cut_zero
  · show ∀ v ∈ (m.loaded p).stack.items, _
    rw [hj]
    exact fun v hv => absurd hv List.not_mem_nil

end ScriptEngine
