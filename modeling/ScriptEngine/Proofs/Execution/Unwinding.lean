import ScriptEngine.Proofs.Execution.ParallelStacks

/-!
# What a failed run leaves behind

A run that fails is not unwound: the records of the calls in progress stay, with their captured
frames, their operands and the frame of the innermost one. What natives had begun is undone, since a
failure on its way out of a native takes the engine back. Calls from outside go on from there, and
their depth is counted from the calls that were left.
-/

namespace ScriptEngine

/-!
# Pending work

Starting a call and handing an outcome to work that waits never end the run, and never take work away
that waits further out.
-/

/-- The transition does not end the run, and leaves the work that is pending. -/
def Advance.Leaves (pending : List Pending) : Advance → Prop
  | .next s => pending <:+ s.pending
  | .finished _ _ => False
  | .crashed _ _ => True

namespace State

variable {m : Machine} {pending : List Pending}

theorem deliver_leaves {o : Except Fault Value} : Advance.Leaves pending (deliver m pending o) :=
  List.suffix_refl _

theorem follow_leaves {info : NativeInfo} {sn : Snapshot} {action : Action} :
    Advance.Leaves pending (follow m pending info sn action) := by
  induction action generalizing m with
  | done => exact deliver_leaves
  | fail f w =>
    rcases failNative_cases { m with world := w } pending info sn f with ⟨j, hj⟩ | hj
    · rw [show follow m pending info sn (.fail f w) = _ from hj]
      exact deliver_leaves
    · rw [show follow m pending info sn (.fail f w) = _ from hj]
      trivial
  | crash => trivial
  | invoke => exact List.suffix_cons _ _
  | depth w resume ih => exact ih _ _
  | save w resume ih => exact ih _ _
  | restore sn' w resume ih =>
    unfold follow
    split
    · exact ih _
    · trivial

theorem startNative_leaves {info : NativeInfo} {receiver : Option Value} {args : List Value} :
    Advance.Leaves pending (startNative m pending info receiver args) := by
  have henter : ∀ all, Advance.Leaves pending (enterNative m pending info all) := by
    intro all
    unfold enterNative
    split
    · exact deliver_leaves
    · exact follow_leaves
  unfold startNative
  dsimp only
  split
  · split
    · exact deliver_leaves
    · exact henter _
  · exact henter _

theorem startConversion_leaves {t : TypeInfo} {args : List Value} :
    Advance.Leaves pending (startConversion m pending t args) := by
  unfold startConversion
  split
  · split
    · exact List.suffix_cons _ _
    · unfold convertValue
      split
      · exact deliver_leaves
      · exact deliver_leaves
      · trivial
  · exact deliver_leaves

theorem startConstruction_leaves {t : TypeInfo} {args : List Value} :
    Advance.Leaves pending (startConstruction m pending t args) := by
  unfold startConstruction
  split
  · trivial
  split
  · exact List.suffix_cons _ _
  split
  · exact deliver_leaves
  split
  · split
    · trivial
    · exact deliver_leaves
  · exact deliver_leaves

theorem startNested_leaves {cl : Closure} {args : List Value} :
    Advance.Leaves pending (startNested m pending cl args) := by
  unfold startNested
  dsimp only
  split
  · exact List.suffix_cons _ _
  · split
    · exact deliver_leaves
    · trivial
  · trivial

theorem invoke_leaves {callee : Value} {args : List Value} :
    Advance.Leaves pending (invoke m pending callee args) := by
  cases callee with
  | closure c =>
    unfold invoke
    dsimp only
    split
    · exact startNested_leaves
    · trivial
  | native info => exact startNative_leaves
  | bound info receiver => exact startNative_leaves
  | type t =>
    unfold invoke
    dsimp only
    split
    · exact startConstruction_leaves
    · exact startConversion_leaves
  | _ => exact deliver_leaves

/-- Handing over an outcome takes the work on top away, at most. -/
theorem handOut_leaves {work : Pending} {o : Except Fault Value} :
    Advance.Leaves pending (advance ⟨m, work :: pending, .delivering o⟩) := by
  show Advance.Leaves pending (handOut m (work :: pending) o)
  cases work with
  | nested sn =>
    unfold handOut endNested
    dsimp only
    split
    · exact deliver_leaves
    · split
      · exact deliver_leaves
      · trivial
  | native info sn resume => exact follow_leaves
  | construct i => exact deliver_leaves
  | convert => exact deliver_leaves
  | instruction =>
    cases o with
    | ok v => exact List.suffix_refl _
    | error f => exact deliver_leaves

theorem execute_leaves : Advance.Leaves pending (execute m pending) := by
  rcases execute_cases m pending with ⟨_, _, h⟩ | ⟨h, -⟩ | ⟨_, h⟩ | ⟨op, j, -, -, h⟩
  · rw [h]
    trivial
  · rw [h]
    exact deliver_leaves
  · rw [h]
    exact deliver_leaves
  · rw [h]
    cases Exec.step op (m.withJournal j) with
    | ok n m₁ =>
      cases n with
      | call => exact List.suffix_cons _ _
      | _ => exact List.suffix_refl _
    | error e m₁ =>
      cases e with
      | fault f => exact deliver_leaves
      | crash message => trivial

/-- A run is over when an outcome arrives that nobody waits for. -/
theorem advance_finished {s : State} {m' : Machine} {o : Except Fault Value}
    (h : s.advance = .finished o m') : s = ⟨m', [], .delivering o⟩ := by
  obtain ⟨m, pending, mode⟩ := s
  have hends : ∀ {P : List Pending}, ¬ Advance.Leaves P (.finished o m') := id
  cases mode with
  | running => exact absurd (h ▸ execute_leaves : Advance.Leaves pending (.finished o m')) hends
  | invoking callee args =>
    exact absurd (h ▸ invoke_leaves : Advance.Leaves pending (.finished o m')) hends
  | delivering o' =>
    cases pending with
    | nil =>
      cases h
      rfl
    | cons work rest =>
      exact absurd (h ▸ handOut_leaves : Advance.Leaves rest (.finished o m')) hends

end State

/-!
# The outermost level
-/

section
variable {w : Watch} {s : State} {m m' : Machine} {p : Program} {f : Fault} {pending : List Pending}

/-- Work that waits is never the outermost level of a run. -/
theorem Aligned.pending_ne_nil {st : Store} {q : Stance} (hfloor : w.floor = none)
    (h : Aligned w st pending (.waiting q)) : pending ≠ [] := by
  rintro rfl
  cases h with
  | floor h =>
    rw [hfloor] at h
    cases h

/-- The outermost activation of a run, and those it has called, have no natives below them. -/
theorem Aligned.no_natives {st : Store} {g : Base} {b : FrameId} (hfloor : w.floor = none)
    (h : Aligned w st [] (.active g b)) : g.natives = #[] := by
  generalize htier : Tier.active g b = tier at h
  generalize hpending : ([] : List Pending) = pending at h
  induction h generalizing g b with
  | floor h =>
    rw [hfloor] at h
    cases h
  | root =>
    cases htier
    rfl
  | @called _ g₀ b₀ _ q _ _ _ hq _ _ _ _ ih =>
    cases htier
    exact hq.natives.trans (@ih g₀ b₀ rfl hpending)
  | nested => cases hpending
  | instruction => cases htier
  | construct => cases htier
  | convert => cases htier
  | native => cases htier

/-- A fault that leaves the outermost level of a run was that of an instruction, and the engine is
still in its activation. -/
theorem InStep.active_of_fault (hw : w.Sound) (hfloor : w.floor = none) (hs : InStep w s)
    (hnext : s.advance = .next ⟨m', [], .delivering (.error f)⟩) : w.Active [] m' := by
  have hinner : ∀ {st : Store} {pending : List Pending} {q : Stance} {a : Advance},
      Aligned w st pending (.waiting q) → a.Leaves pending →
        a ≠ .next ⟨m', [], .delivering (.error f)⟩ := by
    rintro st pending q _ h hleaves rfl
    exact h.pending_ne_nil hfloor (List.suffix_nil.mp hleaves)
  cases hs with
  | @running m pending g b hm hs hq _ =>
    obtain ⟨rfl, hactive⟩ := Watch.Active.fault hw ⟨hm, g, b, hs, hq⟩ hnext
    exact hactive
  | invoking _ hs => exact absurd hnext (hinner hs State.invoke_leaves)
  | @settled m pending o hm hs =>
    generalize htier : Tier.waiting m.stance = tier at hs
    cases hs with
    | floor h =>
      rw [hfloor] at h
      cases h
    | root => cases htier
    | called => cases htier
    | nested => cases htier
    | @instruction rest g b q h hq =>
      cases htier
      cases o with
      | ok v => cases hnext
      | error f₀ =>
        cases hnext
        exact ⟨hm, g, b, h, hq⟩
    | construct h => exact absurd hnext (hinner h State.handOut_leaves)
    | convert h => exact absurd hnext (hinner h State.handOut_leaves)
    | native h => exact absurd hnext (hinner h State.handOut_leaves)
  | returned _ hs => exact absurd hnext (hinner hs State.handOut_leaves)
  | ended => cases hnext
  | broken _ hs =>
    rcases hs.unwind with rfl | ⟨tier, h⟩ | ⟨q, sn, rest, rfl, -, hwaits, -⟩
    · cases hnext
    · rw [hfloor] at h
      cases h
    · exact absurd hnext (hinner hwaits State.handOut_leaves)

/-- No natives are left where a fault leaves a run. -/
theorem InStep.no_natives (hfloor : w.floor = none)
    (hs : InStep w ⟨m', [], .delivering (.error f)⟩) : m'.natives = #[] := by
  cases hs with
  | settled _ hs => exact absurd rfl (hs.pending_ne_nil hfloor)
  | broken _ hs hq => exact hq.natives.trans (hs.no_natives hfloor)

/-!
# Calls from outside
-/

/-- No closure is entered once the calls in progress fill the limit. -/
theorem State.invoke_refused (hfull : m.options.maxDepth ≤ m.calls.size) (c : ClosureId)
    (args : List Value) :
    (∃ f m₁, State.invoke m pending (.closure c) args = State.deliver m₁ pending (.error f)) ∨
      ∃ message m₁, State.invoke m pending (.closure c) args = .crashed message m₁ := by
  unfold State.invoke
  dsimp only
  split
  · rename_i cl _
    unfold State.startNested
    rcases Exec.enterClosure_spec cl args true (m.natives.back?.getD Text.empty) m with
      ⟨-, hdepth⟩ | ⟨f, hf⟩
    · exact absurd hdepth (Nat.not_lt.mpr hfull)
    · simp only [hf]
      split
      · exact Or.inl ⟨f, _, rfl⟩
      · exact Or.inr ⟨_, _, rfl⟩
  · exact Or.inr ⟨_, _, rfl⟩

theorem Machine.call_refused (hfull : m.options.maxDepth ≤ m.calls.size) (fuel : Nat) (c : ClosureId)
    (args : List Value) (v : Value) : m.call fuel (.closure c) args ≠ some (.ok v, m') := by
  unfold Machine.call
  cases fuel with
  | zero => exact fun h => by cases h
  | succ fuel =>
    unfold State.run State.advance
    have hrefused : (∃ f m₁, State.invoke m [] (.closure c) args = State.deliver m₁ [] (.error f)) ∨
        ∃ message m₁, State.invoke m [] (.closure c) args = .crashed message m₁ :=
      State.invoke_refused hfull c args
    rcases hrefused with ⟨f, m₁, h⟩ | ⟨message, m₁, h⟩
    · -- The fault goes out with the transition after that.
      simp only [h]
      cases fuel with
      | zero => exact fun h => by cases h
      | succ fuel => exact fun h => by cases h
    · simp only [h]
      exact fun h => by cases h

/-- A run that fails leaves the stacks as they were at the instruction that failed: no native is
running and no record is that of a nested run, but the calls in progress stay. Calls from outside
count them, and none is answered where they fill the limit. -/
theorem failed_run_leaves_calls (hcalls : m.library.CallsOnly) (hreaches : m.Reaches p s)
    (hend : s.advance = .finished (.error f) m') :
    m'.Parallel [] ∧ m'.natives = #[] ∧ (∀ record ∈ m'.calls, record.reentry = false) ∧
      (m'.options.maxDepth ≤ m'.calls.size → ∀ fuel c args v m'',
        m'.call fuel (.closure c) args ≠ some (.ok v, m'')) := by
  have hwhole : (Watch.whole m p fun _ => True).Sound :=
    Watch.whole_sound hcalls fun _ => trivial
  obtain rfl := State.advance_finished hend
  have hparallel : m'.Parallel [] := by
    cases hreaches with
    | step hbefore hnext =>
      have hactive := (Machine.Reaches.inStep hwhole (fun _ _ _ => trivial) hbefore).active_of_fault
        hwhole rfl hnext
      exact hactive.parallel rfl rfl
  refine ⟨hparallel, ?_, ?_, fun hfull fuel c args v m'' => m'.call_refused hfull fuel c args v⟩
  · exact (hreaches.inStep hwhole fun _ _ _ => trivial).no_natives rfl
  · intro record hrecord
    have hnone := Array.eq_empty_of_size_eq_zero hparallel.reentrant
    refine Bool.eq_false_iff.mpr fun hreentry => ?_
    have hmem : record ∈ m'.calls.filter (·.reentry) := Array.mem_filter.mpr ⟨hrecord, hreentry⟩
    rw [hnone] at hmem
    exact Array.not_mem_empty record hmem

end

/-!
# A call that fails

One function returns a text, another one fails, and the program calls the second.
-/

/-- The program `func fine() { return "fine" }`. -/
def fineFunction : List Stmt :=
  [.expr .zero (.func .zero "fine" [] (.mk .zero [.ret .zero (some (.text .zero "fine"))]))]

/-- The program above, then `func failing() { return missing }; failing()`. -/
def failingCall : List Stmt :=
  fineFunction ++
    [.expr .zero (.func .zero "failing" [] (.mk .zero [.ret .zero (some (.var .zero "missing"))])),
      .expr .zero (.call .zero (.var .zero "failing") [])]

/-- A new engine without natives that lets one call be in progress. -/
def shallowEngine : Machine :=
  .new ⟨.empty, .new Text.empty, .new false⟩ .empty (.ofHost false false Text.empty 1)

/-- What the function `fine` gives when it is called from outside. -/
def Machine.fineText (fuel : Nat) (m : Machine) : Option (Except Failure Text) :=
  match m.global? "fine" with
  | none => none
  | some callee =>
    match m.call fuel callee [] with
    | some (.ok (.text t), _) => some (.ok t)
    | some (.error (.fault f), _) => some (.error f.failure)
    | _ => none

/-- Whether the next transition ends the run with a fault and leaves as many calls. -/
def State.failsIn (calls : Nat) (s : State) : Bool :=
  match s.advance with
  | .finished (.error _) m => m.calls.size == calls
  | _ => false

theorem failed_run_leaves_calls_failingCall :
    ∃ c s f m', (Compiler.compile .absent false failingCall).result = .ok c ∧
      shallowEngine.Reaches c.program s ∧ s.advance = .finished (.error f) m' ∧
      m'.calls.size = 1 ∧ m'.Parallel [] ∧ m'.natives = #[] := by
  have hcalls : shallowEngine.library.CallsOnly :=
    Library.callsOnly_of_behaviours fun b hb => absurd hb (Array.not_mem_empty b)
  obtain ⟨c, hcompiled, hsteps⟩ :
      ∃ c, (Compiler.compile .absent false failingCall).result = .ok c ∧
        ((shallowEngine.start c.program).steps 16).any (State.failsIn 1) = true :=
    ⟨_, rfl, by decide +kernel⟩
  obtain ⟨s, hs, hfails⟩ := (Option.any_eq_true _ _).mp hsteps
  have hreaches : shallowEngine.Reaches c.program s := .of_steps hs
  unfold State.failsIn at hfails
  split at hfails
  · rename_i f m' hend
    obtain ⟨hparallel, hnatives, -⟩ := failed_run_leaves_calls hcalls hreaches hend
    exact ⟨c, s, f, m', hcompiled, hreaches, hend, eq_of_beq hfails, hparallel, hnatives⟩
  · cases hfails

/-- After the failed run the engine still holds the call that failed, and refuses a call from outside
that it answers after a run that ended well. -/
theorem failed_call_stays :
    ∃ c d, (Compiler.compile .absent false failingCall).result = .ok c ∧
      (Compiler.compile .absent false fineFunction).result = .ok d ∧
      ((shallowEngine.execute 30 c.program).map fun e => (e.2.calls.size, e.2.captured.size)) =
        some (1, 1) ∧
      ((shallowEngine.execute 30 c.program).bind fun e => e.2.fineText 30) =
        some (.error .callDepth) ∧
      ((shallowEngine.execute 30 d.program).bind fun e => e.2.fineText 30) = some (.ok "fine") :=
  ⟨_, _, rfl, rfl, by decide +kernel, by decide +kernel, by decide +kernel⟩

end ScriptEngine
