import ScriptEngine.Proofs.Execution.Compiled
import ScriptEngine.Proofs.Machine.Calls

/-!
# Where closures run

A closure keeps the place where it begins, but not the program in which that place lies. While the
program runs that built it, a call goes on in the function it was built from. A closure that the
engine still holds from an earlier program goes on at the same place of the program that is loaded
now, whatever stands there.
-/

namespace ScriptEngine

/-- A function body begins at the position: the instruction in front of it builds a closure. -/
def Op.BodyAt (ops : Array Op) (ip : Int) : Prop :=
  ∃ (i : Nat) (d : Int), ops[i]? = some (.buildFunc d) ∧ ip = i + 1

/-- A closure of the store begins at the position. -/
def Store.BeginsAt (s : Store) (ip : Int) : Prop :=
  ∃ c cl, s.closure? c = some cl ∧ cl.entry = ip

section
variable {m : Machine} {p : Program} {s s' : State}

/-- What closures of a run are watched for. -/
theorem Machine.Reaches.bodies (hcalls : m.library.CallsOnly) (h : m.Reaches p s) :
    (Watch.whole m p fun ip => Op.BodyAt (Op.ofProgram p).ops ip ∨ m.world.store.BeginsAt ip).Sound ∧
      InStep (Watch.whole m p fun ip =>
        Op.BodyAt (Op.ofProgram p).ops ip ∨ m.world.store.BeginsAt ip) s := by
  have hw : (Watch.whole m p fun ip =>
      Op.BodyAt (Op.ofProgram p).ops ip ∨ m.world.store.BeginsAt ip).Sound :=
    Watch.whole_sound hcalls fun hop => Or.inl ⟨_, _, hop, rfl⟩
  exact ⟨hw, h.inStep hw fun c cl hc => Or.inr ⟨c, cl, hc, rfl⟩⟩

/-- A closure that a machine holds begins at the same place throughout an execution. -/
theorem Machine.Reaches.closure (hcalls : m.library.CallsOnly) (h : m.Reaches p s) {c : ClosureId}
    {cl : Closure} (hc : m.world.store.closure? c = some cl) :
    ∃ cl', s.machine.world.store.closure? c = some cl' ∧ cl'.entry = cl.entry := by
  induction h with
  | refl =>
    obtain ⟨j, hj⟩ := m.loaded_eq p
    unfold Machine.start
    rw [hj]
    exact ⟨cl, hc, rfl⟩
  | step h hnext ih =>
    obtain ⟨cl', hc', hentry⟩ := ih
    obtain ⟨hw, hs⟩ := Machine.Reaches.bodies hcalls h
    obtain ⟨cl'', hc'', hentry'⟩ := ((hs.turn hw rfl hnext).extends hw).closures c cl' hc'
    exact ⟨cl'', hc'', hentry'.trans hentry⟩

theorem State.Begins.entered (h : s.Begins s') :
    ∃ (m : Machine) (c : ClosureId) (cl : Closure) (args : List Value) (reentry : Bool)
      (native : Text), s'.machine = m.entered cl args reentry native ∧
        m.world.store.closure? c = some cl ∧ s'.mode = .running := by
  cases h with
  | instruction _ _ _ hcl => exact ⟨_, _, _, _, _, _, rfl, hcl, rfl⟩
  | callback hcl => exact ⟨_, _, _, _, _, _, rfl, hcl, rfl⟩

/-- Every call of a closure goes on in the program that is loaded, at the place where the closure
begins. That is a function body of the program, or the place of a closure that the engine held
already when it began to execute the program, and such a closure has kept its place. -/
theorem calls_go_on_in_loaded_program (hcalls : m.library.CallsOnly) (hreaches : m.Reaches p s)
    (hnext : s.advance = .next s')
    (hdeeper : s.machine.calls.size < s'.machine.calls.size) :
    (∃ c cl, s'.machine.world.store.closure? c = some cl ∧ s'.mode = .running ∧
      s'.machine.program = some p ∧ s'.machine.ip = cl.entry ∧
      (Op.BodyAt (Op.ofProgram p).ops cl.entry ∨ m.world.store.BeginsAt cl.entry)) ∧
    ∀ c cl, m.world.store.closure? c = some cl →
      ∃ cl', s'.machine.world.store.closure? c = some cl' ∧ cl'.entry = cl.entry := by
  have hreaches' : m.Reaches p s' := State.Leads.step hreaches hnext
  obtain ⟨hw, hs⟩ := hreaches.bodies hcalls
  obtain ⟨-, hs'⟩ := hreaches'.bodies hcalls
  refine ⟨?_, fun c cl hc => hreaches'.closure hcalls hc⟩
  obtain ⟨m₁, c, cl, args, reentry, native, hmachine, hcl, hmode⟩ :=
    ((hs.turn hw rfl hnext).enters hdeeper).entered
  obtain ⟨j, hj⟩ := m₁.entered_eq cl args reentry native
  have hcl' : s'.machine.world.store.closure? c = some cl := by
    rw [hmachine, hj]
    exact hcl
  refine ⟨c, cl, hcl', hmode, hs'.keeps.program, ?_, hs'.keeps.entries c cl hcl'⟩
  rw [hmachine, hj]

end

/-- Whether the next transition enters a closure. -/
def State.entersNext (s : State) : Bool :=
  match s.advance with
  | .next s' => s.machine.calls.size < s'.machine.calls.size
  | _ => false

theorem calls_go_on_in_loaded_program_relayedLoop :
    ∃ c s s', (Compiler.compile .absent false relayedLoop).result = .ok c ∧
      relayEngine.Reaches c.program s ∧ s.advance = .next s' ∧
      ∃ f cl, s'.machine.world.store.closure? f = some cl ∧
        s'.machine.program = some c.program ∧ s'.machine.ip = cl.entry := by
  obtain ⟨c, hcompiled, hsteps⟩ :
      ∃ c, (Compiler.compile .absent false relayedLoop).result = .ok c ∧
        ((relayEngine.start c.program).steps 6).any State.entersNext = true :=
    ⟨_, rfl, by decide +kernel⟩
  obtain ⟨s, hs, henters⟩ := (Option.any_eq_true _ _).mp hsteps
  have hreaches : relayEngine.Reaches c.program s := .of_steps hs
  unfold State.entersNext at henters
  cases hnext : s.advance with
  | next s' =>
    rw [hnext] at henters
    obtain ⟨⟨f, cl, hcl, -, hprogram, hip, -⟩, -⟩ := calls_go_on_in_loaded_program
      Library.relaying_callsOnly hreaches hnext (of_decide_eq_true henters)
    exact ⟨c, s, s', hcompiled, hreaches, hnext, f, cl, hcl, hprogram, hip⟩
  | finished o m =>
    rw [hnext] at henters
    cases henters
  | crashed message m =>
    rw [hnext] at henters
    cases henters

/-!
# Two programs

The first one keeps a function in a dict of the host, the second one calls what is kept there.
-/

/-- The expression `func() { return t }`. -/
def telling (t : Text) : Expr :=
  .func .zero Text.empty [] (.mk .zero [.ret .zero (some (.text .zero t))])

/-- The expression `shared.kept`. -/
def keptFunction : Expr :=
  .member .zero (.var .zero "shared") "kept"

/-- The program `shared.kept = func() { return "own" }`. -/
def keepFunction : List Stmt :=
  [.expr .zero (.assign .zero keptFunction (telling "own") .inner)]

/-- The program `func() { return "other" }; return shared.kept()`. -/
def callKeptFunction : List Stmt :=
  [.expr .zero (telling "other"), .ret .zero (some (.call .zero keptFunction []))]

/-- A new engine with a dict of the host and no natives. -/
def sharingEngine : Machine :=
  .new ⟨(Store.empty.newDict .empty).2, .new Text.empty, .new false⟩
    (Library.empty.define "shared" (.dict 0)) (.ofHost false false Text.empty 0)

/-- The text that the second of two programs ends with. -/
def Machine.lastText (fuel : Nat) (m : Machine) (p q : Program) : Option Text :=
  match m.execute fuel p with
  | some (.value _, m) =>
    match m.execute fuel q with
    | some (.value (.text t), _) => some t
    | _ => none
  | _ => none

/-- The kept function runs the body of a function of the second program. -/
theorem kept_function_runs_other_body :
    ∃ c d, (Compiler.compile .absent false keepFunction).result = .ok c ∧
      (Compiler.compile .absent false callKeptFunction).result = .ok d ∧
      sharingEngine.lastText 30 c.program d.program = some "other" :=
  ⟨_, _, rfl, rfl, by decide +kernel⟩

end ScriptEngine
