import ScriptEngine.Proofs.Machine.Activations

/-!
# The discipline of runs

One transition of a run keeps the levels of the run in order: instructions lead from layout to
layout, calls and natives put a level on top, and outcomes take levels off again. Whatever takes a
level off finds the posture that was there when the level was put on.
-/

namespace ScriptEngine

section
variable (r : Regime)

/-- The engine runs the program, and every closure of its store begins where a layout says that a
function begins. -/
structure Sane (m : Machine) : Prop where
  backed : m.stack.Backed
  runs : m.program = some r.program
  decoded : m.ops = r.ops
  table : m.library = r.library
  entries : ∀ c cl, m.world.store.closure? c = some cl →
    ∃ i : Nat, cl.entry = i ∧ i ≤ r.ops.size ∧ r.ty i = .entry
  clean : r.tidy → m.world.store.Neat r.strict r.known
  bindings : r.tidy → m.library.bindings.All (m.world.store.Admits r.known)

/-- The states of a run that is in order. -/
inductive InOrder : State → Prop
  /-- An instruction is to be executed, in front of which the layout is as promised. -/
  | running {m : Machine} {pending : List Pending} {g : Ground} {b : FrameId} {inCall : Bool}
    {i : Nat} (hm : Sane r m)
    (hs : Stands r m.world.store pending (.active g b inCall))
    (hq : Poised r m.world.store g b inCall (r.ty i) m.posture) (hip : m.ip = i)
    (hi : i ≤ r.ops.size) : InOrder ⟨m, pending, .running⟩
  | invoking {m : Machine} {pending : List Pending} {callee : Value} {args : List Value}
    (hm : Sane r m)
    (hs : Stands r m.world.store pending (.waiting m.posture))
    (hcallee : Exec.Good r.tidy r.known callee m.world.store)
    (hargs : ∀ v ∈ args, Exec.Good r.tidy r.known v m.world.store) :
    InOrder ⟨m, pending, .invoking callee args⟩
  /-- An outcome for work that finds its posture again. -/
  | settled {m : Machine} {pending : List Pending} {o : Except Fault Value}
    (hm : Sane r m)
    (hs : Stands r m.world.store pending (.waiting m.posture))
    (ho : r.tidy → m.world.store.AdmitsOutcome r.known o) : InOrder ⟨m, pending, .delivering o⟩
  /-- A nested run has returned, all but the place in the program is as before. -/
  | returned {m : Machine} {pending : List Pending} {q : Posture} {v : Value}
    (hm : Sane r m)
    (hs : Stands r m.world.store pending (.waiting q))
    (hq : m.posture = { q with ip := m.ip }) (hv : Exec.Good r.tidy r.known v m.world.store) :
    InOrder ⟨m, .nested q.snapshot :: pending, .delivering (.ok v)⟩
  /-- The program is over. -/
  | ended {m : Machine} {v : Value} (hm : Sane r m)
    (hfloor : r.floor = none) (hq : m.posture.On ⟨[], #[], #[], #[]⟩) (hstack : m.posture.stack = [])
    (hv : Exec.Good r.tidy r.known v m.world.store) : InOrder ⟨m, [], .delivering (.ok v)⟩
  /-- An activation has failed, and what it stands on is still there. -/
  | broken {m : Machine} {pending : List Pending} {g : Ground} {b : FrameId} {inCall : Bool}
    {f : Fault} (hm : Sane r m)
    (hs : Stands r m.world.store pending (.active g b inCall))
    (hq : m.posture.On g) (hf : r.tidy → f.Known) : InOrder ⟨m, pending, .delivering (.error f)⟩

/-- The transition leads to a state in order, or ends the program; where natives never crash, it does so
only if something was not clean. -/
def Advance.InOrder : Advance → Prop
  | .next s => ScriptEngine.InOrder r s
  | .finished o m => r.floor = none ∧ (∀ v, o = .ok v → m.stack.items = []) ∧ Sane r m ∧
    (r.tidy → m.world.store.AdmitsOutcome r.known o)
  | .crashed _ _ => r.tidy → ¬ r.calm

end

section
variable {r : Regime} {m : Machine} {pending : List Pending} {g : Ground} {b : FrameId}
  {inCall : Bool} {a : Layout} {i : Nat}

theorem InOrder.sane {s : State} (h : InOrder r s) : Sane r s.machine := by
  cases h with
  | running hm | invoking hm | settled hm | returned hm | ended hm | broken hm => exact hm

/-- The machine with another journal. -/
def Machine.withJournal (m : Machine) (j : Journal) : Machine :=
  { m with world := { m.world with journal := j } }

theorem Machine.tell_eq (m : Machine) (level : Level) (text : Machine → Text) :
    ∃ j, m.tell level text = m.withJournal j := by
  unfold Machine.tell
  split
  · exact ⟨_, rfl⟩
  · exact ⟨m.world.journal, rfl⟩

theorem Sane.withJournal (h : Sane r m) (j : Journal) :
    Sane r (m.withJournal j) :=
  ⟨h.backed, h.runs, h.decoded, h.table, h.entries, h.clean, h.bindings⟩

/-- The engine stays sane while values are worked on. -/
theorem Sane.grows {s : Store} (h : Sane r m)
    (hs : m.world.store.Grows s) (hclean : r.tidy → s.Neat r.strict r.known) :
    Sane r (m.withStore s) where
  backed := h.backed
  runs := h.runs
  decoded := h.decoded
  table := h.table
  entries c cl hc := by
    obtain ⟨c₀, cl₀, hc₀, hentry⟩ := hs.entries c cl hc
    rw [← hentry]
    exact h.entries c₀ cl₀ hc₀
  clean := hclean
  bindings ht := (h.bindings ht).imp fun _ hv => hv.grows hs

/-- The engine stays sane when a closure is built whose body begins at a function's entry. -/
theorem Sane.newClosure {cl : Closure} (hm : Sane r m)
    (hentry : cl.entry = i) (hi : i ≤ r.ops.size) (hty : r.ty i = .entry)
    (hreceiver : cl.receiver = none) :
    Sane r (m.withStore (m.world.store.newClosure cl).2) where
  backed := hm.backed
  runs := hm.runs
  decoded := hm.decoded
  table := hm.table
  entries c cl' hc := by
    have hc : (m.world.store.closures.push cl)[c]? = some cl' := hc
    rw [Array.getElem?_push] at hc
    split at hc
    · cases hc
      exact ⟨i, hentry, hi, hty⟩
    · exact hm.entries c cl' hc
  clean ht := (hm.clean ht).newClosure fun v hv => by
    rw [hreceiver] at hv
    cases hv
  bindings ht := (hm.bindings ht).imp fun _ hv =>
    hv.mono (Store.Extends.newClosure m.world.store cl).size_closures

theorem Sane.withStack {st : OperandStack} (h : Sane r m)
    (hst : st.Backed) : Sane r (m.withStack st) :=
  ⟨hst, h.runs, h.decoded, h.table, h.entries, h.clean, h.bindings⟩

theorem Sane.leaving {l rest : List Value} (h : Sane r m)
    (hl : m.Stacks (l ++ rest)) : Sane r (m.leaving rest) :=
  h.withStack hl.leaving.backed

theorem Machine.Stacks.posture {l : List Value} (h : m.Stacks l) :
    m.posture = ⟨l, m.frame, m.captured, m.calls, m.natives, m.ip⟩ := by
  unfold Machine.posture
  rw [h.items]

/-!
# Faults
-/

theorem Failure.code_known {f : Failure} (h : f.Known) (kind : Text) :
    Text.ofString (f.code kind).1 ≠ Text.ofString "RE0000" := by
  obtain ⟨hinternal, hother⟩ := h
  have hcontext : ∀ e ∈ f.contextCodes, Text.ofString e.2.1 ≠ Text.ofString "RE0000" := by
    cases f with
    | other => exact fun e he => absurd he List.not_mem_nil
    | _ => decide
  unfold Failure.code
  split
  · rename_i hfind
    exact hcontext _ (List.mem_of_find?_eq_some hfind)
  · cases f with
    | internal => exact absurd rfl hinternal
    | other k => exact absurd rfl (hother k)
    | _ => decide

theorem Machine.problemAt_known {f : Failure} (h : f.Known) (m : Machine) (ip : Int)
    (message : Text) : (m.problemAt ip f message).code ≠ Text.ofString "RE0000" := by
  unfold Machine.problemAt
  split
  · exact Failure.code_known h _
  · exact Failure.code_known h _

theorem Fault.Known.locate {f : Fault} (h : f.Known) (m : Machine) : (m.locate f).Known := by
  cases f with
  | located => exact h
  | raised f message =>
    refine ⟨h, ?_⟩
    intro p hp
    rw [List.mem_toArray.mp hp |> List.mem_singleton.mp]
    exact Machine.problemAt_known h m m.ip message
  | foreign => exact absurd h id

theorem Fault.Raisable.nativeFault {f : Fault} (h : f.Raisable) (m : Machine) (info : NativeInfo) :
    (State.nativeFault m info f).Known := by
  have hhost : Failure.hostCall.Known := by simp [Failure.Known]
  have hone : ∀ {c : Failure}, c.Known → ∀ message,
      ∀ p ∈ #[m.problemAt m.ip c message], p.code ≠ Text.ofString "RE0000" := by
    intro c hc message p hp
    rw [List.mem_toArray.mp hp |> List.mem_singleton.mp]
    exact Machine.problemAt_known hc m m.ip message
  cases f with
  | located c message problems trace =>
    refine ⟨h.1, ?_⟩
    intro p hp
    rcases Array.mem_push.mp hp with hp | rfl
    · exact h.2 p hp
    · exact Machine.problemAt_known hhost m m.ip _
  | raised c message => exact ⟨h, hone h message⟩
  | foreign text => exact ⟨hhost, hone hhost _⟩

/-!
# Rules for instructions

An instruction whose work keeps to values leads on or leaves a failed activation. What it pushed
and where it goes on is all that is left to say about it.
-/

namespace Regime

/-- The operations agree with the layouts, a memory could hold them, and natives behave. -/
structure Valid (r : Regime) : Prop where
  fit : Op.Fit r.ops r.ty
  size : r.program.size = r.ops.size
  limit : r.ops.size ≤ Slot.limit
  calls : r.library.CallsOnly
  proper : r.tidy → r.library.Tidy r.calm r.strict r.known

end Regime

/-- What follows an executed instruction. -/
def State.after (pending : List Pending) : EStateM.Result Stop Machine Exec.Next → Advance
  | .ok onward m => proceed pending onward m
  | .error (.fault f) m => deliver m pending (.error (m.locate f))
  | .error (.crash message) m => .crashed message m

theorem Poised.moved {s : Store} {q : Posture} (h : Poised r s g b inCall a q) (ip : Int) :
    Poised r s g b inCall a { q with ip := ip } :=
  ⟨h.stack, h.frame, h.captured, h.calls, h.natives, h.live, h.inCall⟩

theorem Posture.On.moved {q : Posture} (h : q.On g) (ip : Int) : { q with ip := ip }.On g :=
  ⟨h.stack, h.captured, h.calls, h.natives⟩

theorem Sane.moved (h : Sane r m) (ip : Int) : Sane r { m with ip := ip } :=
  ⟨h.backed, h.runs, h.decoded, h.table, h.entries, h.clean, h.bindings⟩

/-- Control arrives at a position with the layout that is promised there. -/
theorem inOrder_at (hm : Sane r m)
    (hs : Stands r m.world.store pending (.active g b inCall))
    (hq : Poised r m.world.store g b inCall a m.posture) (hi : i ≤ r.ops.size)
    (hty : r.ty i = a) {ip : Int} (hip : ip = i) :
    InOrder r ⟨{ m with ip := ip }, pending, .running⟩ := by
  subst hty
  exact .running (hm.moved ip) hs (hq.moved ip) hip hi

theorem wrapWord_of_le {t : Nat} (ht : t ≤ Slot.limit) : Number.wrapWord t = t := by
  have hlimit : Slot.limit = 17592186044416 := rfl
  unfold Number.wrapWord
  exact Int64.toInt_ofInt_of_le (by omega) (by omega)

theorem inOrder_skip (hr : r.Valid) (hm : Sane r m)
    (hs : Stands r m.world.store pending (.active g b inCall))
    (hq : Poised r m.world.store g b inCall a m.posture) (hip : m.ip = i) {d : Int}
    (hd : Onward.At r.ty r.ops.size i d a) :
    Advance.InOrder r (State.proceed pending (.skip d) m) := by
  obtain ⟨t, ht, hle, hty⟩ := hd
  refine inOrder_at hm hs hq hle hty ?_
  rw [hip, ← ht]
  exact wrapWord_of_le (Nat.le_trans hle hr.limit)

theorem inOrder_fault {f : Fault} (hm : Sane r m)
    (hs : Stands r m.world.store pending (.active g b inCall)) (hq : m.posture.On g)
    (hf : r.tidy → f.Known) : Advance.InOrder r (State.after pending (.error (.fault f) m)) :=
  .broken hm hs hq fun ht => (hf ht).locate m

/-- An instruction works on values and goes on with the result. -/
theorem after_bind {α : Type} {x : Exec α} {k : α → Exec Exec.Next} {P : α → Store → Prop}
    (hm : Sane r m) (hs : Stands r m.world.store pending (.active g b inCall))
    (hq : m.posture.On g) (hx : Exec.Keeps r.tidy r.strict r.known x m P)
    (hk : ∀ a s, m.world.store.Grows s → Sane r (m.withStore s) → P a s →
      Advance.InOrder r (State.after pending (k a (m.withStore s)))) :
    Advance.InOrder r (State.after pending ((x >>= k) m)) := by
  unfold Exec.Keeps at hx
  cases hrun : x m with
  | ok a m' =>
    rw [hrun] at hx
    obtain ⟨s, rfl, hgrows, hclean, hP⟩ := hx
    rw [Exec.bind_of_ok hrun]
    exact hk a s hgrows (hm.grows hgrows hclean) hP
  | error e m' =>
    rw [hrun] at hx
    rw [Exec.bind_of_error hrun]
    cases e with
    | fault f =>
      obtain ⟨s, rfl, hgrows, hclean⟩ := hx
      exact inOrder_fault (hm.grows hgrows fun ht => (hclean ht).1) (hs.extends hgrows.toExtends) hq
        fun ht => (hclean ht).2
    | crash message => exact fun ht => absurd ht hx

theorem Poised.push {s : Store} (slot : Slot) {v : Value} (hq : Poised r s g b inCall a m.posture)
    (hbacked : m.stack.Backed) (hv : slot.Holds r.tidy r.known s v) :
    Poised r s g b inCall (a.push slot) (m.withStack (m.stack.push v)).posture where
  stack := by
    obtain ⟨l, hl, hfill⟩ := hq.stack
    refine ⟨v :: l, ?_, hv, hfill⟩
    show (m.stack.push v).items = _
    rw [OperandStack.items_push hbacked]
    exact congrArg (v :: ·) hl
  frame := hq.frame
  captured := hq.captured
  calls := hq.calls
  natives := hq.natives
  live := hq.live
  inCall := hq.inCall

/-- An instruction whose work on values gives a result that is pushed. -/
theorem after_result {x : Exec Value} (hm : Sane r m)
    (hs : Stands r m.world.store pending (.active g b inCall))
    (hq : Poised r m.world.store g b inCall a m.posture) (hip : m.ip = i) (hi : i < r.ops.size)
    (hty : r.ty (i + 1) = a.push .value)
    (hx : Exec.Keeps r.tidy r.strict r.known x m (Exec.Good r.tidy r.known)) :
    Advance.InOrder r (State.after pending (Exec.result x m)) := by
  refine after_bind hm hs hq.on hx ?_
  intro v s hgrows hm' hv
  have hv : Slot.Holds r.tidy r.known s .value v := hv
  have hq' : Poised r s g b inCall a (m.withStore s).posture := hq.extends hgrows.toExtends
  refine inOrder_at (m := (m.withStore s).withStack (m.stack.push v))
    (hm'.withStack (OperandStack.backed_push hm.backed v)) (hs.extends hgrows.toExtends)
    (hq'.push .value hm.backed hv) hi hty ?_
  show m.ip + 1 = ((i + 1 : Nat) : Int)
  omega

/-- The same where operands may be left on the stack by a failure, which only the first part of the
work can meet with. -/
theorem after_like {α : Type} {x : Exec α} {k : α → Exec Exec.Next} {P : α → Store → Prop}
    {rest : List Value} {result : EStateM.Result Stop Machine Exec.Next} (hm : Sane r m)
    (hs : Stands r m.world.store pending (.active g b inCall)) (hq : m.posture.On g)
    (hrest : m.Stacks rest) (hx : Exec.Keeps r.tidy r.strict r.known x m P)
    (hk : ∀ a m', ∃ onward m'', k a m' = .ok onward m'')
    (hdone : Advance.InOrder r (State.after pending ((x >>= k) m)))
    (hlike : Exec.Like rest result ((x >>= k) m)) :
    Advance.InOrder r (State.after pending result) := by
  generalize hwork : (x >>= k) m = work at hlike hdone
  cases hlike with
  | same => exact hdone
  | @stop e m' st hst hsuffix =>
    unfold Exec.Keeps at hx
    cases hrun : x m with
    | ok v m₁ =>
      obtain ⟨onward, m₂, hok⟩ := hk v m₁
      rw [Exec.bind_of_ok hrun, hok] at hwork
      cases hwork
    | error e' m₁ =>
      rw [Exec.bind_of_error hrun] at hwork
      cases hwork
      rw [hrun] at hx
      cases e with
      | crash message => exact fun ht => absurd ht hx
      | fault f =>
        obtain ⟨s, rfl, hgrows, hclean⟩ := hx
        refine inOrder_fault ((hm.grows hgrows fun ht => (hclean ht).1).withStack hst)
          (hs.extends hgrows.toExtends) ?_ fun ht => (hclean ht).2
        refine ⟨?_, hq.captured, hq.calls, hq.natives⟩
        have hstack : g.stack <:+ m.stack.items := hq.stack
        rw [hrest.items] at hstack
        exact hstack.trans hsuffix

/-- The operands of an instruction are off the stack. -/
theorem Poised.leaving {s : Store} {a' : Layout} {l rest l' : List Value}
    (hq : Poised r s g b inCall a' m.posture) (hstacks : m.Stacks (l ++ rest))
    (hrest : rest = l' ++ g.stack) (hfill : Slot.Fill r.tidy r.known s a.slots l')
    (hscopes : a'.scopes = a.scopes) (hlive : a'.live = a.live) (hinCall : a'.inCall = a.inCall) :
    Poised r s g b inCall a (m.leaving rest).posture where
  stack := ⟨l', by rw [← hrest]; exact hstacks.leaving.items, hfill⟩
  frame := by
    obtain ⟨f, hf, habove⟩ := hq.frame
    rw [hscopes] at habove
    exact ⟨f, hf, habove⟩
  captured := hq.captured
  calls := hq.calls
  natives := hq.natives
  live := hlive ▸ hq.live
  inCall := hinCall ▸ hq.inCall

/-- What the stack of a poised engine looks like. -/
theorem Poised.stacks {s : Store} (hq : Poised r s g b inCall a m.posture)
    (hbacked : m.stack.Backed) :
    ∃ l, m.Stacks (l ++ g.stack) ∧ Slot.Fill r.tidy r.known s a.slots l := by
  obtain ⟨l, hl, hfill⟩ := hq.stack
  exact ⟨l, ⟨hbacked, hl⟩, hfill⟩

/-!
# Calls and returns
-/

theorem Store.newFrame_frame? (s : Store) (fr : Frame) :
    (s.newFrame fr).2.frame? (s.newFrame fr).1 = some fr := by
  show (s.frames.push fr)[s.frames.size]? = some fr
  exact Array.getElem?_push_size

theorem Machine.entered_eq (m : Machine) (c : Closure) (args : List Value) (reentry : Bool)
    (native : Text) :
    ∃ j, m.entered c args reentry native =
      { (m.withStore (m.world.store.newFrame (m.callFrame c args native)).2).withJournal j with
        calls := m.calls.push ⟨m.ip, m.stack.height, reentry⟩
        captured := m.captured.push c.frame
        frame := some (m.world.store.newFrame (m.callFrame c args native)).1
        ip := c.entry } := by
  unfold Machine.entered
  dsimp only
  obtain ⟨j, hj⟩ := Machine.tell_eq
    { m.withStore (m.world.store.newFrame (m.callFrame c args native)).2 with
      calls := m.calls.push ⟨m.ip, m.stack.height, reentry⟩
      captured := m.captured.push c.frame
      frame := some (m.world.store.newFrame (m.callFrame c args native)).1
      ip := c.entry } .debug fun m =>
        "call " ++ Store.closureName c ++ " (depth " ++ Text.ofNat m.calls.size ++ ")"
  exact ⟨j, hj⟩

/-- The bindings of a call are its arguments. -/
theorem callFrame_clean {s : Store} {n : NativeInfo → Prop} {c : Closure} {args : List Value}
    (hreceiver : ∀ v, c.receiver = some v → s.Admits n v) (hargs : ∀ v ∈ args, s.Admits n v)
    (native : Text) : (m.callFrame c args native).vars.All (s.Admits n) := by
  refine Table.All.insertAll Table.All.empty ?_
  intro p hp
  have hp : p.2 ∈ Exec.withReceiver c.receiver args := (List.of_mem_zip hp).2
  unfold Exec.withReceiver at hp
  cases hr : c.receiver with
  | none =>
    rw [hr] at hp
    exact hargs p.2 hp
  | some v =>
    rw [hr] at hp
    rcases List.mem_cons.mp hp with heq | hp
    · rw [heq]
      exact hreceiver v hr
    · exact hargs p.2 hp

/-- A closure that was entered stands at its beginning, on the posture of its caller. -/
theorem entered_inOrder {c : ClosureId} {cl : Closure} {args : List Value} {reentry : Bool}
    {native : Text} {pending' : List Pending} (hm : Sane r m)
    (hcl : m.world.store.closure? c = some cl)
    (hargs : ∀ v ∈ args, Exec.Good r.tidy r.known v m.world.store)
    (hs : ∀ s b, m.world.store.Extends s → s.LeadsBack b m.frame →
      Stands r s pending' (.active (m.posture.ground cl.frame reentry) b true)) :
    InOrder r ⟨m.entered cl args reentry native, pending', .running⟩ := by
  obtain ⟨i, hentry, hi, hty⟩ := hm.entries c cl hcl
  obtain ⟨j, hj⟩ := m.entered_eq cl args reentry native
  obtain ⟨fr, hfr⟩ : ∃ fr, fr = m.callFrame cl args native := ⟨_, rfl⟩
  rw [← hfr] at hj
  have hgrows := Store.Grows.newFrame m.world.store fr
  have hframe := Store.newFrame_frame? m.world.store fr
  have hclean : r.tidy → (m.world.store.newFrame fr).2.Neat r.strict r.known := by
    intro ht
    refine (hm.clean ht).newFrame ?_
    rw [hfr]
    exact callFrame_clean ((hm.clean ht).receivers cl (Array.mem_of_getElem? hcl))
      (fun v hv => hargs v hv ht) native
  have hboundary : fr.isBoundary = true := by
    rw [hfr]
    rfl
  have hheight : m.stack.height = m.posture.stack.length :=
    (OperandStack.length_items hm.backed).symm
  have hm' := hm.grows hgrows hclean
  rw [hj]
  refine .running (i := i) (g := m.posture.ground cl.frame reentry)
    (b := (m.world.store.newFrame fr).1) ?_ (?_ : Stands r _ _ (.active _ _ true)) ?_ hentry hi
  · exact ⟨hm'.backed, hm'.runs, hm'.decoded, hm'.table, hm'.entries, hm'.clean, hm'.bindings⟩
  · refine hs _ _ hgrows.toExtends ⟨fr, hframe, hboundary, ?_⟩
    rw [hfr]
    rfl
  · rw [hty]
    refine ⟨⟨[], rfl, trivial⟩, ⟨_, rfl, .here hframe hboundary⟩, rfl, ?_, rfl, rfl, rfl⟩
    show m.calls.push ⟨m.ip, m.stack.height, reentry⟩ = _
    rw [hheight]
    rfl

theorem after_callValue {callee : Value} {args : List Value} (hm : Sane r m)
    (hs : Stands r m.world.store pending (.active g b inCall))
    (hq : Poised r m.world.store g b inCall a m.posture) (hip : m.ip = i) (hi : i < r.ops.size)
    (hty : r.ty (i + 1) = a.push .value) (hcallee : Exec.Good r.tidy r.known callee m.world.store)
    (hargs : ∀ v ∈ args, Exec.Good r.tidy r.known v m.world.store) :
    Advance.InOrder r (State.after pending (Exec.callValue callee args m)) := by
  have hrefuse : ∀ v : Value, Advance.InOrder r (State.after pending
      ((Exec.typeName v >>= fun t => Exec.raise .notCallable (t ++ " is not callable")) m)) :=
    fun v => after_bind hm hs hq.on (Exec.Keeps.reads hm.clean (P := fun _ _ => True) trivial)
      fun _ s hgrows hm' _ => inOrder_fault hm' (hs.extends hgrows.toExtends) hq.on
        fun _ => by simp [Fault.Known, Failure.Known]
  have hwaits : Stands r m.world.store (.instruction :: pending) (.waiting m.posture) :=
    .instruction hs hq hip hi hty
  cases callee with
  | closure c =>
    show Advance.InOrder r (State.after pending
      ((Exec.reads (fun m => m.world.store.closure? c) >>= _) m))
    rw [Exec.bind_of_ok (show Exec.reads (fun m => m.world.store.closure? c) m =
      .ok (m.world.store.closure? c) m from rfl)]
    cases hcl : m.world.store.closure? c with
    | none =>
      intro ht
      have hlt : c < m.world.store.closures.size := hcallee ht
      rw [Store.closure?, Array.getElem?_eq_getElem hlt] at hcl
      cases hcl
    | some cl =>
      show Advance.InOrder r (State.after pending
        ((Exec.enterClosure cl args false Text.empty >>= fun _ => pure .stay) m))
      rw [Exec.bind_congr (Exec.enterClosure_eq cl args false Text.empty m), Exec.bind_assoc]
      refine after_bind hm hs hq.on (Exec.keeps_checkCall hm.clean cl args) ?_
      rintro _ s - hm' rfl
      refine entered_inOrder hm hcl hargs ?_
      intro s b' hextends hback
      exact .called (hs.extends hextends) (hq.extends hextends) hip hi hty hback
  | native info => exact .invoking hm hwaits hcallee hargs
  | bound info receiver => exact .invoking hm hwaits hcallee hargs
  | type t => exact .invoking hm hwaits hcallee hargs
  | _ => exact hrefuse _

theorem after_applyOperator {op : Text} {first : Value} {rest : List Value} (hm : Sane r m)
    (hs : Stands r m.world.store pending (.active g b inCall))
    (hq : Poised r m.world.store g b inCall a m.posture) (hip : m.ip = i) (hi : i < r.ops.size)
    (hty : r.ty (i + 1) = a.push .value)
    (hargs : ∀ v ∈ first :: rest, Exec.Good r.tidy r.known v m.world.store) :
    Advance.InOrder r (State.after pending (Exec.applyOperator op (first :: rest) m)) := by
  refine after_bind hm hs hq.on (Exec.keeps_operator hm.clean hm.bindings op first) ?_
  intro callee s hgrows hm' hcallee
  have hs' := hs.extends hgrows.toExtends
  cases callee with
  | some callee =>
    exact after_callValue hm' hs' (hq.extends hgrows.toExtends) hip hi hty (hcallee callee rfl)
      fun v hv ht => (hargs v hv ht).grows hgrows
  | none =>
    refine after_bind hm' hs' hq.on (Exec.Keeps.reads hm'.clean (P := fun _ _ => True) trivial) ?_
    intro t s₁ hgrows₁ hm₁ _
    have hs₁ := hs'.extends hgrows₁.toExtends
    have hfault : ∀ message, Advance.InOrder r (State.after pending
        (.error (.fault (.raised .typeMismatch message)) ((m.withStore s).withStore s₁))) :=
      fun message => inOrder_fault hm₁ hs₁ hq.on fun _ => by simp [Fault.Known, Failure.Known]
    split
    · refine after_bind hm₁ hs₁ hq.on
        (Exec.Keeps.reads hm₁.clean (P := fun _ _ => True) trivial) ?_
      intro u s₂ hgrows₂ hm₂ _
      exact inOrder_fault hm₂ (hs₁.extends hgrows₂.toExtends) hq.on
        fun _ => by simp [Fault.Known, Failure.Known]
    · exact hfault _

/-- What a return does: the record and the boundary of the call come off, and the stack is cut at
the height that it had at the call. -/
theorem Exec.giveBack_eq {record : CallRecord} {fr : Frame}
    (hcalls : m.calls.back? = some record) (hb : m.world.store.boundary m.frame = some b)
    (hfr : m.world.store.frame? b = some fr) (v : Value) :
    ∃ j, Exec.giveBack v m =
      let m' := { m.withJournal j with
        calls := m.calls.pop
        frame := fr.caller
        captured := m.captured.pop
        stack := m.stack.cut record.depth }
      if record.reentry then .ok (.done v) m'
      else .ok .next { m'.withStack (m'.stack.push v) with ip := record.callIp } := by
  obtain ⟨j, hj⟩ := Machine.tell_eq { m with calls := m.calls.pop } .debug
    fun _ => "return from " ++ fr.name
  refine ⟨j, ?_⟩
  unfold Exec.giveBack
  rw [Exec.bind_of_ok (show Exec.reads (fun m => m.calls.back?) m = .ok m.calls.back? m from rfl),
    hcalls]
  dsimp only
  have hboundary : Exec.reads (fun m => (m.world.store.boundary m.frame).bind
      fun b => m.world.store.frame? b) m = .ok (some fr) m := by
    unfold Exec.reads
    simp only [hb, Option.bind_some, hfr]
  rw [Exec.bind_of_ok hboundary]
  rw [Exec.bind_of_ok (show (modify fun m => { m with calls := m.calls.pop } : Exec Unit) m =
    .ok () { m with calls := m.calls.pop } from rfl)]
  dsimp only
  rw [Exec.bind_of_ok (show Exec.tell (fun _ => "return from " ++ fr.name)
    { m with calls := m.calls.pop } =
      .ok () ({ m with calls := m.calls.pop }.withJournal j) by rw [← hj]; rfl)]
  cases record.reentry <;> rfl

/-- A return ends the program, goes on behind the call, or ends a nested run. -/
theorem after_giveBack {v : Value} (hm : Sane r m)
    (hs : Stands r m.world.store pending (.active g b inCall))
    (hq : Poised r m.world.store g b inCall a m.posture) (ha : a.slots = [])
    (hv : Exec.Good r.tidy r.known v m.world.store)
    (hstay : r.floor ≠ some (pending, .active g b inCall)) :
    Advance.InOrder r (State.after pending (Exec.giveBack v m)) := by
  obtain ⟨f, hframe, habove⟩ := hq.frame
  have hboundary : m.world.store.boundary m.frame = some b := by
    rw [show m.frame = some f from hframe]
    exact habove.boundary
  have hstacks : m.Stacks g.stack := by
    obtain ⟨l, hl, hfill⟩ := hq.stacks hm.backed
    rw [ha] at hfill
    cases l with
    | nil => exact hl
    | cons => exact absurd hfill id
  have hback : ∀ {q : Posture} {around : Option FrameId} {reentry : Bool} (fr : Frame)
      (j : Journal) (ip : Int), g = q.ground around reentry → fr.caller = q.frame →
      let m' := { m.withJournal j with
        calls := m.calls.pop
        frame := fr.caller
        captured := m.captured.pop
        stack := m.stack.cut q.stack.length
        ip := ip }
      Sane r m' ∧ m'.posture = { q with ip := ip } := by
    rintro q around reentry fr j ip rfl hcaller
    have hstack : (m.leaving q.stack).Stacks q.stack := Machine.Stacks.leaving (l := []) hstacks
    have hcalls : m.calls.pop = q.calls := by
      rw [show m.calls = _ from hq.calls]
      exact Array.pop_push
    have hcaptured : m.captured.pop = q.captured := by
      rw [show m.captured = _ from hq.captured]
      exact Array.pop_push
    refine ⟨⟨hstack.backed, hm.runs, hm.decoded, hm.table, hm.entries, hm.clean, hm.bindings⟩, ?_⟩
    show Posture.mk (m.stack.cut q.stack.length).items fr.caller m.captured.pop m.calls.pop
      m.natives ip = _
    rw [hcalls, hcaptured, hcaller, show m.natives = _ from hq.natives]
    exact congrArg (Posture.mk · _ _ _ _ _) hstack.items
  cases hs with
  | floor h => exact absurd h hstay
  | top hfloor =>
    have hcalls : m.calls.back? = none := by
      rw [show m.calls = _ from hq.calls]
      rfl
    have hdone : Exec.giveBack v m = .ok (.done v) m := by
      unfold Exec.giveBack
      rw [Exec.bind_of_ok (show Exec.reads (fun m => m.calls.back?) m =
        .ok m.calls.back? m from rfl), hcalls]
      rfl
    rw [hdone]
    exact .ended hm hfloor hq.on hstacks.items hv
  | @called _ g₀ b₀ _ inCall₀ a₀ q i around h hq₀ hip hi hty hb =>
    obtain ⟨fr, hfr, -, hcaller⟩ := hb
    have hcalls : m.calls.back? = some ⟨q.ip, q.stack.length, false⟩ := by
      rw [show m.calls = _ from hq.calls]
      exact Array.back?_push
    obtain ⟨j, hj⟩ := Exec.giveBack_eq hcalls hboundary hfr v
    obtain ⟨hm', hposture⟩ := hback fr j q.ip rfl hcaller
    rw [hj]
    have hq' : Poised r m.world.store g₀ b₀ inCall₀ (a₀.push .value) _ :=
      Poised.push .value (hposture ▸ hq₀) hm'.backed hv
    refine inOrder_at (i := i + 1) (hm'.withStack (OperandStack.backed_push hm'.backed v)) h hq' hi
      hty ?_
    show q.ip + 1 = ((i + 1 : Nat) : Int)
    omega
  | @nested rest _ q around h hb =>
    obtain ⟨fr, hfr, -, hcaller⟩ := hb
    have hcalls : m.calls.back? = some ⟨q.ip, q.stack.length, true⟩ := by
      rw [show m.calls = _ from hq.calls]
      exact Array.back?_push
    obtain ⟨j, hj⟩ := Exec.giveBack_eq hcalls hboundary hfr v
    obtain ⟨hm', hposture⟩ := hback fr j m.ip rfl hcaller
    rw [hj]
    exact .returned hm' h hposture hv

end
end ScriptEngine
