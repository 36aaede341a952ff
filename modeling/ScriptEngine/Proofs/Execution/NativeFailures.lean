import ScriptEngine.Proofs.Execution.Compiled
import ScriptEngine.Proofs.Machine.Straight
import ScriptEngine.Proofs.Machine.Waiting

/-!
# Failures on their way through natives

A fault is located once: by the engine at the instruction that failed, or by the native that failed on
its own account, at the instruction by which it was called. From there it goes out through the work that
waits, and each native among it adds one problem. What was located first, its problem and its call
history, stays as it was.
-/

namespace ScriptEngine

/-!
# Where a fault is located
-/

def Fault.isLocated : Fault → Bool
  | .located .. => true
  | _ => false

theorem Fault.Raised.not_located {f : Fault} (h : f.Raised) : f.isLocated = false := by
  cases f with
  | raised => rfl
  | located | foreign => exact h.elim

/-- The native that the next transition lets work. -/
def State.worker? (s : State) : Option NativeInfo :=
  match s.mode, s.pending with
  | .invoking (.native n) _, _ => some n
  | .invoking (.bound n _) _, _ => some n
  | .delivering _, .native n _ _ :: _ => some n
  | _, _ => none

/-- The execution ends with a fault, and not with a crash: so it does if an operand of the program cannot
be read, and else if the run does. -/
def Machine.EndsFaulty (m : Machine) (fuel : Nat) (p : Program) : Prop :=
  (Op.ofProgram p).flaw = none →
    ∃ f m', State.run fuel (m.start p) = some (.finished (.error f) m')

/-- While the program is executed a fault is located: it was not when the transition began, and it is
when it is handed on. If a native did this transition, it is the one that failed. A fault that reaches
the end of the run without a place is located there, and so is that of an operand which cannot be
read. -/
inductive Machine.Locates (m : Machine) (p : Program) : Option NativeInfo → State → Fault → Prop
  | handed {s t : State} {f : Fault} (hread : (Op.ofProgram p).flaw = none)
    (hreached : m.Reaches p s)
    (hfresh : ∀ f', s.mode = .delivering (.error f') → f'.isLocated = false)
    (hnext : s.advance = .next t) (hmode : t.mode = .delivering (.error f))
    (hlocated : f.isLocated = true) : Locates m p s.worker? t f
  | last {t : State} {f : Fault} (hread : (Op.ofProgram p).flaw = none) (hreached : m.Reaches p t)
    (hpending : t.pending = []) (hmode : t.mode = .delivering (.error f))
    (hfresh : f.isLocated = false) : Locates m p none t (t.machine.locate f)
  | unread {t : State} {i : Nat} {instruction : Instruction} {f : Fault}
    (hflaw : (Op.ofProgram p).flaw = some (i, instruction))
    (hf : f = .raised .internal (Machine.malformed instruction))
    (ht : t = ⟨{ m.loaded p with ip := i }, [], .delivering (.error f)⟩) :
    Locates m p none t (t.machine.locate f)

/-- A fault that a native, if there is one, or else the engine locates. -/
def Machine.report (m : Machine) : Option NativeInfo → Fault → Fault
  | none, f => m.locate f
  | some n, f => State.nativeFault m n f

/-- A fault is located with one problem, at the current instruction; the native that failed heads the
call history. -/
theorem Machine.report_eq (m : Machine) (worker : Option NativeInfo) {f : Fault}
    (h : f.isLocated = false) :
    ∃ failure message, m.report worker f = .located failure message
      #[m.problemAt m.ip failure message]
      ((worker.toList.map fun n => ⟨Key.display n.name, none⟩).toArray ++ m.traceAt m.ip) := by
  cases worker with
  | none =>
    refine ⟨f.failure, f.message, ?_⟩
    cases f with
    | located => cases h
    | raised | foreign => simp [report, locate]
  | some n =>
    cases f with
    | located => cases h
    | raised failure message => exact ⟨failure, message, rfl⟩
    | foreign t => exact ⟨.hostCall, _, rfl⟩

namespace State

section
variable {m M : Machine} {pending pending' : List Pending} {f : Fault}

theorem execute_fault (h : execute m pending = .next ⟨M, pending', .delivering (.error f)⟩) :
    f.Raised ∨ ∃ f₀, f₀.Raised ∧ f = M.locate f₀ := by
  unfold execute at h
  split at h
  · cases h
  split at h
  · split at h
    · cases h
    · cases h
      exact .inl trivial
  split at h
  · cases h
  dsimp only at h
  split at h
  · cases h
  · rename_i op _
    split at h
    · rename_i onward m₁ _
      cases onward <;> cases h
    · rename_i f₀ m₁ hstep
      cases h
      exact .inr ⟨f₀, Exec.raises_step op _ f₀ _ hstep, rfl⟩
    · cases h

/-- A native that fails locates its fault, or adds to what was located. -/
theorem failNative_fault {n : NativeInfo} {sn : Snapshot} {e : Fault}
    (h : failNative m pending n sn e = .next ⟨M, pending', .delivering (.error f)⟩) :
    pending' = pending ∧ f = nativeFault M n e := by
  rcases failNative_cases m pending n sn e with ⟨j, hj⟩ | hj
  · rw [hj] at h
    cases h
    exact ⟨rfl, rfl⟩
  · rw [hj] at h
    cases h

theorem follow_fault {n : NativeInfo} {sn : Snapshot} {st : Store} {a : Action} (ha : a.Relays st)
    (h : follow m pending n sn a = .next ⟨M, pending', .delivering (.error f)⟩) :
    pending' = pending ∧ ∃ f₀, f₀.Raised ∧ f = nativeFault M n f₀ := by
  cases ha with
  | done => cases h
  | @fail _ f₀ w hf =>
    obtain ⟨hpending, hfault⟩ := failNative_fault h
    exact ⟨hpending, f₀, hf, hfault⟩
  | crash => cases h
  | invoke => cases h

theorem startNative_fault {n : NativeInfo} {receiver : Option Value} {args : List Value}
    (hlibrary : m.library.Relays)
    (h : startNative m pending n receiver args = .next ⟨M, pending', .delivering (.error f)⟩) :
    f.Raised ∨ pending' = pending ∧ ∃ f₀, f₀.Raised ∧ f = nativeFault M n f₀ := by
  by_cases htakes : Takes n (Exec.withReceiver receiver args)
  · rw [startNative_takes htakes] at h
    by_cases hfull : nativeLimit ≤ m.natives.size
    · obtain ⟨message, hrefused⟩ := enterNative_full
        (Exec.withReceiver receiver args) hfull
      rw [hrefused] at h
      cases h
      exact .inl trivial
    · rw [enterNative_action (Nat.lt_of_not_le hfull)] at h
      exact .inr (follow_fault (hlibrary n _ m.world) h)
  · obtain ⟨message, hrefused⟩ := startNative_refused htakes
    rw [hrefused] at h
    cases h
    exact .inl trivial

/-- The call of a type raises its fault, if it fails at once. -/
theorem startType_fault {t : TypeInfo} {args : List Value}
    (h : invoke m pending (.type t) args = .next ⟨M, pending', .delivering (.error f)⟩) :
    f.Raised := by
  unfold invoke at h
  dsimp only at h
  split at h
  · unfold startConstruction at h
    split at h
    · cases h
    split at h
    · cases h
    split at h
    · cases h
    split at h
    · split at h <;> cases h
    · cases h
      trivial
  · unfold startConversion at h
    split at h
    · split at h
      · cases h
      · rename_i v _ _
        unfold convertValue at h
        split at h
        · cases h
        · rename_i f₀ m₁ hconvert
          cases h
          exact Exec.raises_convert v t.name m f _ hconvert
        · cases h
    · cases h
      trivial

theorem startNested_fault {cl : Closure} {args : List Value}
    (h : startNested m pending cl args = .next ⟨M, pending', .delivering (.error f)⟩) : f.Raised := by
  unfold startNested at h
  dsimp only at h
  split at h
  · cases h
  · rename_i f₀ m₁ henter
    split at h
    · cases h
      exact Exec.raises_enterClosure cl args true _ m f _ henter
    · cases h
  · cases h

/-- What a call can end with at once: a raised fault, or one that a native has located. -/
theorem invoke_fault {callee : Value} {args : List Value} (hlibrary : m.library.Relays)
    (h : invoke m pending callee args = .next ⟨M, pending', .delivering (.error f)⟩) :
    f.Raised ∨ pending' = pending ∧ ∃ n f₀, worker? ⟨m, pending, .invoking callee args⟩ = some n ∧
      f₀.Raised ∧ f = nativeFault M n f₀ := by
  cases callee with
  | closure c =>
    unfold invoke at h
    dsimp only at h
    split at h
    · exact .inl (startNested_fault h)
    · cases h
  | native n =>
    exact (startNative_fault hlibrary h).imp_right fun ⟨hpending, f₀, hf₀, hf⟩ =>
      ⟨hpending, n, f₀, rfl, hf₀, hf⟩
  | bound n receiver =>
    exact (startNative_fault hlibrary h).imp_right fun ⟨hpending, f₀, hf₀, hf⟩ =>
      ⟨hpending, n, f₀, rfl, hf₀, hf⟩
  | type t => exact .inl (startType_fault h)
  | _ =>
    cases h
    exact .inl trivial

/-- What an outcome that is handed over can turn into: the fault that was handed over, or one that
was located meanwhile. -/
theorem handOut_fault {o : Except Fault Value} (hwaits : ∀ n sn resume,
      .native n sn resume ∈ pending → Relaying resume)
    (h : handOut m pending o = .next ⟨M, pending', .delivering (.error f)⟩) :
    o = .error f ∨ ∃ f₀, (o = .error f₀ ∨ f₀.Raised) ∧
      f = M.report (worker? ⟨m, pending, .delivering o⟩) f₀ := by
  cases pending with
  | nil => cases h
  | cons work rest =>
    cases work with
    | nested sn =>
      unfold handOut endNested at h
      dsimp only at h
      split at h
      · cases h
      · split at h
        · cases h
          exact .inl rfl
        · cases h
    | construct i =>
      cases o with
      | ok v => cases h
      | error f₀ =>
        cases h
        exact .inl rfl
    | convert =>
      cases h
      exact .inl rfl
    | instruction =>
      unfold handOut endInstruction at h
      dsimp only at h
      split at h
      · cases h
      · cases h
        exact .inr ⟨_, .inl rfl, rfl⟩
    | native n sn resume =>
      have hresume := hwaits n sn resume List.mem_cons_self
      cases o with
      | ok v =>
        obtain ⟨-, f₀, hraised, hf⟩ := follow_fault (hresume.ok v m.world) h
        exact .inr ⟨f₀, .inr hraised, hf⟩
      | error f₀ =>
        rw [handOut_error hresume.error] at h
        exact .inr ⟨f₀, .inl rfl, (failNative_fault h).2⟩

/-- Where a transition that is handed no located fault hands one on, the fault is located by the
transition itself. -/
theorem advance_fault {s t : State} (hlibrary : s.machine.library.Relays)
    (hwaits : ∀ n sn resume, .native n sn resume ∈ s.pending → Relaying resume)
    (hfresh : ∀ f', s.mode = .delivering (.error f') → f'.isLocated = false)
    (hnext : s.advance = .next t) (hmode : t.mode = .delivering (.error f))
    (hlocated : f.isLocated = true) :
    ∃ f₀, f₀.isLocated = false ∧ f = t.machine.report s.worker? f₀ := by
  have hraised : ¬ f.Raised := fun h => by
    rw [h.not_located] at hlocated
    cases hlocated
  obtain ⟨m, pending, mode⟩ := s
  obtain ⟨M, pending', _⟩ := t
  obtain rfl : _ = _ := hmode
  cases mode with
  | running =>
    obtain ⟨f₀, hf₀, hf⟩ := (execute_fault hnext).resolve_left hraised
    exact ⟨f₀, hf₀.not_located, hf⟩
  | invoking callee args =>
    obtain ⟨-, n, f₀, hworker, hf₀, hf⟩ := (invoke_fault hlibrary hnext).resolve_left hraised
    refine ⟨f₀, hf₀.not_located, ?_⟩
    rw [hworker]
    exact hf
  | delivering o =>
    rcases handOut_fault hwaits hnext with rfl | ⟨f₀, hf₀, hf⟩
    · rw [hfresh f rfl] at hlocated
      cases hlocated
    · refine ⟨f₀, ?_, hf⟩
      rcases hf₀ with rfl | hf₀
      · exact hfresh f₀ rfl
      · exact hf₀.not_located

/-!
# The way out
-/

/-- The problem that a native adds to a located fault which goes out through it, given the first
problem. -/
def blame (m : Machine) (p : Problem) : Pending → Option Problem
  | .native n sn _ =>
    some (m.problemAt sn.ip .hostCall (Key.display n.name ++ " failed: " ++ p.message))
  | _ => none

theorem blame_congr (h : M.program = m.program) (p : Problem) : blame M p = blame m p := by
  funext work
  cases work with
  | native n sn resume => simp only [blame, Machine.problemAt, Machine.entryAt, h]
  | _ => rfl

section
variable {failure : Failure} {message : Text} {p : Problem} {problems : Array Problem} {trace : Trace}

/-- Work that is handed a located fault hands it on. If it is a native, it adds its problem; nothing
else becomes of the fault. -/
theorem handOut_located {work : Pending} (hfirst : problems[0]? = some p)
    (hwork : ∀ n sn resume, work = .native n sn resume → Relaying resume) :
    (∃ reason M, handOut m (work :: pending) (.error (.located failure message problems trace)) =
      .crashed reason M) ∨
    ∃ M, M.program = m.program ∧
      handOut m (work :: pending) (.error (.located failure message problems trace)) =
        deliver M pending (.error (.located failure message
          (problems ++ (blame m p work).toList.toArray) trace)) := by
  have hsame : problems ++ ([] : List Problem).toArray = problems := by simp
  cases work with
  | nested sn =>
    unfold handOut endNested
    dsimp only
    split
    · exact .inr ⟨m.restore sn, rfl, by rw [show (blame m p (.nested sn)).toList = [] from rfl, hsame]⟩
    · exact .inl ⟨_, _, rfl⟩
  | construct i =>
    refine .inr ⟨m.outOfNative, rfl, ?_⟩
    rw [show (blame m p (.construct i)).toList = [] from rfl, hsame]
    rfl
  | convert =>
    refine .inr ⟨m.outOfNative, rfl, ?_⟩
    rw [show (blame m p .convert).toList = [] from rfl, hsame]
    rfl
  | instruction =>
    refine .inr ⟨m, rfl, ?_⟩
    rw [show (blame m p .instruction).toList = [] from rfl, hsame]
    rfl
  | native n sn resume =>
    rw [handOut_error (hwork n sn resume rfl).error]
    rcases failNative_cases m pending n sn (.located failure message problems trace) with ⟨j, hj⟩ | hj
    · refine .inr ⟨(m.outOfNative.restore sn).withJournal j, rfl, ?_⟩
      have hfault : nativeFault (m.outOfNative.restore sn) n
          (.located failure message problems trace) = .located failure message
            (problems.push (m.problemAt sn.ip .hostCall
              (Key.display n.name ++ " failed: " ++ p.message))) trace := by
        simp only [nativeFault, hfirst]
        rfl
      rw [hj, hfault]
      simp [blame]
    · exact .inl ⟨_, _, hj⟩

/-- A located fault goes out through all work that waits. -/
theorem run_located : ∀ {pending : List Pending} {fuel : Nat} {m M : Machine}
      {o : Except Fault Value} {problems : Array Problem},
    (∀ n sn resume, .native n sn resume ∈ pending → Relaying resume) → problems[0]? = some p →
    State.run fuel ⟨m, pending, .delivering (.error (.located failure message problems trace))⟩ =
      some (.finished o M) →
    o = .error (.located failure message
      (problems ++ (pending.filterMap (blame m p)).toArray) trace) := by
  intro pending
  induction pending with
  | nil =>
    intro fuel m M o problems _ _ hrun
    cases fuel with
    | zero => cases hrun
    | succ fuel =>
      cases hrun
      simp
  | cons work rest ih =>
    intro fuel m M o problems hwaits hfirst hrun
    cases fuel with
    | zero => cases hrun
    | succ fuel =>
      unfold State.run advance at hrun
      dsimp only at hrun
      rcases handOut_located hfirst fun n sn resume hwork =>
          hwaits n sn resume (hwork ▸ List.mem_cons_self) with ⟨reason, M', hcrash⟩ | ⟨M', hM', hnext⟩
      · rw [hcrash] at hrun
        cases hrun
      · rw [hnext] at hrun
        have hfirst' : (problems ++ (blame m p work).toList.toArray)[0]? = some p := by
          obtain ⟨hlt, -⟩ := Array.getElem?_eq_some_iff.mp hfirst
          rw [Array.getElem?_append_left hlt, hfirst]
        have hout := ih (fun n sn resume hmem => hwaits n sn resume (List.mem_cons_of_mem work hmem))
          hfirst' hrun
        rw [hout, blame_congr hM', List.filterMap_cons]
        cases blame m p work <;> simp

end

end
end State

/-!
# Natives that wait
-/

/-- What the work stands for on the stack of running natives: a native for its name, a constructor or a
conversion for a marker without one. -/
def Pending.entry? : Pending → Option Text
  | .native n _ _ => some n.name
  | .construct _ | .convert => some Text.empty
  | .nested _ | .instruction => none

/-- The natives among the work that waits, the innermost first, each with the state in which it was
called: what waits below it waited there, and from then on the call of the native has not ended. -/
inductive Machine.Awaits (m : Machine) (p : Program) (t : State) :
    List Pending → List (NativeInfo × State) → Prop
  | nil : Awaits m p t [] []
  | native {n : NativeInfo} {sn : Snapshot} {resume : Except Fault Value → World → Action}
    {rest : List Pending} {calls : List (NativeInfo × State)} {c : State} {receiver : Option Value}
    {args : List Value} (hreached : m.Reaches p c)
    (hcalls : c.mode = .invoking (Value.callable n receiver) args) (hpending : c.pending = rest)
    (hbeneath : c.Beneath t) (hrest : Awaits m p t rest calls) :
    Awaits m p t (.native n sn resume :: rest) ((n, c) :: calls)
  | other {work : Pending} {rest : List Pending} {calls : List (NativeInfo × State)}
    (hwork : ∀ n sn resume, work ≠ .native n sn resume) (hrest : Awaits m p t rest calls) :
    Awaits m p t (work :: rest) calls

/-- The problem of a native that was called in a state, given the first problem. -/
def State.hostProblem (c : State) (n : NativeInfo) (p : Problem) : Problem :=
  ⟨"RE0011", c.machine.spanAt c.machine.ip, Key.display n.name ++ " failed: " ++ p.message,
    Hint.here.name⟩

section
variable {m : Machine} {p : Program} {t : State} {pending : List Pending}

theorem Machine.problemAt_hostCall (m : Machine) (ip : Int) (message : Text) :
    m.problemAt ip .hostCall message = ⟨"RE0011", m.spanAt ip, message, Hint.here.name⟩ := by
  unfold problemAt spanAt
  cases m.entryAt ip <;> rfl

theorem Machine.Reaches.program (hcalls : m.library.CallsOnly) (h : m.Reaches p t) :
    t.machine.program = some p :=
  (h.plain hcalls).keeps.program

/-- The natives that wait, and the problems that they add to a fault on its way out. -/
theorem Machine.Reaches.awaits (hlibrary : m.library.Relays) (h : m.Reaches p t) (first : Problem) :
    ∀ {above pending : List Pending}, t.pending = above ++ pending →
      ∃ calls, m.Awaits p t pending calls ∧
        pending.filterMap (State.blame t.machine first) =
          calls.map fun call => call.2.hostProblem call.1 first := by
  intro above pending
  induction pending generalizing above with
  | nil => exact fun _ => ⟨[], .nil, rfl⟩
  | cons work rest ih =>
    intro heq
    obtain ⟨calls, hcalls, hproblems⟩ :=
      ih (heq.trans (List.append_cons above work rest))
    cases work with
    | native n sn resume =>
      obtain ⟨-, c, hc⟩ := h.waiting hlibrary above n sn resume rest heq
      obtain ⟨receiver, args, hmode⟩ := hc.calls
      refine ⟨(n, c) :: calls, .native hc.reached hmode hc.pending hc.beneath hcalls, ?_⟩
      have hproblem : t.machine.problemAt sn.ip .hostCall
          (Key.display n.name ++ " failed: " ++ first.message) = c.hostProblem n first := by
        rw [Machine.problemAt_hostCall, hc.snapshot]
        unfold State.hostProblem Machine.spanAt Machine.entryAt
        rw [h.program hlibrary.callsOnly, hc.reached.program hlibrary.callsOnly]
        rfl
      simp only [List.filterMap_cons, State.blame, hproblem, hproblems, List.map_cons]
    | nested | construct | convert | instruction =>
      exact ⟨calls, .other (fun _ _ _ hwork => by cases hwork) hcalls, hproblems⟩

/-- The stack of running natives holds what the work stands for. -/
theorem Aligned.entries {w : Watch} {s : Store} {tier : Tier} (hfloor : w.floor = none)
    (h : Aligned w s pending tier) :
    tier.natives.toList.reverse = pending.filterMap Pending.entry? := by
  have hwithin : ∀ {q : Stance} {name : Text}, (q.within name).natives.toList.reverse =
      name :: q.natives.toList.reverse := by
    intro q name
    show (q.natives.push name).toList.reverse = _
    simp
  induction h with
  | floor h =>
    rw [hfloor] at h
    cases h
  | root => rfl
  | @called _ g _ _ q _ _ _ hq _ _ _ _ ih =>
    show q.natives.toList.reverse = _
    rw [hq.natives]
    exact ih
  | nested _ _ _ _ _ ih => exact ih
  | @instruction _ g _ q _ hq _ ih =>
    show q.natives.toList.reverse = _
    rw [hq.natives]
    exact ih
  | construct _ ih => exact hwithin.trans (congrArg _ ih)
  | convert _ ih => exact hwithin.trans (congrArg _ ih)
  | native _ _ _ _ ih => exact hwithin.trans (congrArg _ ih)

theorem Machine.Reaches.entries {f : Fault} (hcalls : m.library.CallsOnly) (h : m.Reaches p t)
    (hmode : t.mode = .delivering (.error f)) :
    t.machine.natives.toList.reverse = t.pending.filterMap Pending.entry? := by
  cases h.plain hcalls with
  | settled _ hs => exact hs.entries rfl
  | @broken m' pending g b f' _ hs hq =>
    show m'.natives.toList.reverse = _
    rw [show m'.natives = g.natives from hq.natives]
    exact hs.entries rfl
  | running | invoking | returned | ended => cases hmode

end

/-!
# Executions
-/

section
variable {m m' : Machine} {p : Program} {fuel : Nat} {s t : State} {worker : Option NativeInfo} {f : Fault}
  {problems : Array Problem} {trace : Trace}

theorem State.Leads.rest (h : s.Leads t) {a : Advance} (hrun : State.run fuel s = some a) :
    ∃ k, State.run k t = some a := by
  induction h with
  | refl => exact ⟨fuel, hrun⟩
  | @step t u _ hnext ih =>
    obtain ⟨k, hk⟩ := ih
    cases k with
    | zero => cases hk
    | succ k =>
      unfold State.run at hk
      rw [hnext] at hk
      exact ⟨k, hk⟩

/-- A fault that was located is that of the place where it was. -/
theorem Machine.Locates.report (hlibrary : m.library.Relays) (h : m.Locates p worker t f) :
    ∃ f₀, f₀.isLocated = false ∧ f = t.machine.report worker f₀ := by
  cases h with
  | handed _ hreached hfresh hnext hmode hlocated =>
    exact State.advance_fault (hreached.library hlibrary.callsOnly ▸ hlibrary)
      (fun _ _ _ => (hreached.waiting hlibrary).relaying) hfresh hnext hmode hlocated
  | last _ _ _ _ hfresh => exact ⟨_, hfresh, rfl⟩
  | unread _ hf _ => exact ⟨_, by rw [hf]; rfl, rfl⟩

/-- A fault that is handed on with a place was located before. -/
theorem Machine.Reaches.located_before (hread : (Op.ofProgram p).flaw = none) (h : m.Reaches p t)
    (hmode : t.mode = .delivering (.error f)) (hlocated : f.isLocated = true) :
    ∃ worker u f', m.Locates p worker u f' := by
  unfold Machine.Reaches at h
  induction h generalizing f with
  | refl => cases hmode
  | @step s t hs hnext ih =>
    by_cases hfresh : ∀ f', s.mode = .delivering (.error f') → f'.isLocated = false
    · exact ⟨_, _, _, .handed hread hs hfresh hnext hmode hlocated⟩
    · simp only [not_forall, Bool.not_eq_false] at hfresh
      obtain ⟨f', hmode', hf'⟩ := hfresh
      exact ih hmode' hf'

/-- Whatever execution ends with a fault, the fault was located. -/
theorem Machine.EndsFaulty.locates (h : m.EndsFaulty fuel p) : ∃ worker t f, m.Locates p worker t f := by
  cases hflaw : (Op.ofProgram p).flaw with
  | some flaw => exact ⟨none, _, _, .unread hflaw rfl rfl⟩
  | none =>
    obtain ⟨f, m', hrun⟩ := h hflaw
    obtain ⟨s, hreached, hlast, -⟩ := State.Leads.of_run hrun
    obtain rfl := State.advance_finished hlast
    cases hlocated : f.isLocated with
    | true => exact Machine.Reaches.located_before hflaw hreached rfl hlocated
    | false => exact ⟨none, _, _, .last hflaw hreached rfl rfl hlocated⟩

theorem Machine.endFaulty_fst (m : Machine) (f : Fault) :
    (m.endFaulty f).1 = .failed (m.locate f).problems (m.locate f).trace := rfl

/-- What an execution reports comes out of the place where its fault was located: the natives that
waited there add their problems, and the call history is the one that was taken there. -/
theorem Machine.Locates.ending (hlibrary : m.library.Relays) (hfaulty : m.EndsFaulty fuel p)
    (hfails : m.execute fuel p = some (.failed problems trace, m')) (h : m.Locates p worker t f)
    {first : Problem} (hfirst : f.problems = #[first]) :
    problems.toList = first :: t.pending.filterMap (State.blame t.machine first) ∧
      trace = f.trace := by
  have hending : ∀ {M : Machine} {f₁ : Fault}, m.execute fuel p = some (M.endFaulty f₁) →
      problems = (M.locate f₁).problems ∧ trace = (M.locate f₁).trace := by
    intro M f₁ hexecute
    rw [hfails] at hexecute
    have hfst := congrArg Prod.fst (Option.some.inj hexecute)
    rw [M.endFaulty_fst f₁] at hfst
    exact Ending.failed.inj hfst
  have hrun : (Op.ofProgram p).flaw = none → m.Reaches p t → ∃ k f₁ M,
      State.run k t = some (.finished (.error f₁) M) ∧ m.execute fuel p = some (M.endFaulty f₁) := by
    intro hread hreached
    obtain ⟨f₁, M, hstart⟩ := hfaulty hread
    obtain ⟨k, hk⟩ := State.Leads.rest hreached hstart
    have hops : Op.ofProgram p = ⟨(Op.ofProgram p).ops, none⟩ := by rw [← hread]
    refine ⟨k, f₁, M, hk, ?_⟩
    rw [Machine.execute_eq hops, hstart]
  cases h with
  | @handed s _ _ hread hreached hfresh hnext hmode hlocated =>
    have ht : m.Reaches p t := .step hreached hnext
    obtain ⟨k, f₁, M, hk, hexecute⟩ := hrun hread ht
    obtain ⟨rfl, rfl⟩ := hending hexecute
    obtain ⟨machine, pending, mode⟩ := t
    obtain rfl : mode = _ := hmode
    cases f with
    | raised | foreign => cases hlocated
    | located failure message located history =>
      obtain rfl : located = #[first] := hfirst
      have hout := State.run_located (p := first) (fun _ _ _ => (ht.waiting hlibrary).relaying) rfl hk
      cases hout
      exact ⟨by simp [Machine.locate, Fault.problems], rfl⟩
  | @last _ f₀ hread hreached hpending hmode hfresh =>
    obtain ⟨k, f₁, M, hk, hexecute⟩ := hrun hread hreached
    obtain ⟨rfl, rfl⟩ := hending hexecute
    obtain ⟨machine, pending, mode⟩ := t
    obtain rfl : pending = _ := hpending
    obtain rfl : mode = _ := hmode
    cases k with
    | zero => cases hk
    | succ k =>
      cases hk
      exact ⟨by rw [hfirst]; rfl, rfl⟩
  | @unread _ i instruction f₀ hflaw hf ht =>
    have hexecute : m.execute fuel p = some (t.machine.endFaulty f₀) := by
      unfold Machine.execute
      dsimp only
      rw [hflaw, ht, hf]
      rfl
    obtain ⟨rfl, rfl⟩ := hending hexecute
    refine ⟨?_, rfl⟩
    rw [hfirst, ht]
    rfl

/-- Where a fault is located, the natives that wait are those on the stack of running natives. -/
theorem Machine.Locates.waits (hlibrary : m.library.Relays) (h : m.Locates p worker t f)
    (first : Problem) :
    ∃ calls, m.Awaits p t t.pending calls ∧
      t.pending.filterMap (State.blame t.machine first) =
        (calls.map fun call => call.2.hostProblem call.1 first) ∧
      t.machine.natives.toList.reverse = t.pending.filterMap Pending.entry? := by
  cases h with
  | handed _ hs _ hnext hmode =>
    have ht : m.Reaches p t := .step hs hnext
    obtain ⟨calls, hcalls, hblame⟩ := ht.awaits hlibrary first (List.nil_append _).symm
    exact ⟨calls, hcalls, hblame, ht.entries hlibrary.callsOnly hmode⟩
  | last _ ht _ hmode =>
    obtain ⟨calls, hcalls, hblame⟩ := ht.awaits hlibrary first (List.nil_append _).symm
    exact ⟨calls, hcalls, hblame, ht.entries hlibrary.callsOnly hmode⟩
  | unread _ _ ht =>
    subst ht
    obtain ⟨j, hj⟩ := m.loaded_eq p
    refine ⟨[], .nil, rfl, ?_⟩
    dsimp only
    rw [hj]
    rfl

/-- An execution that fails has located its fault, and whatever place that was: the first problem is
that of the place, after it comes one for each native that waited for a call of its own, from the
innermost to the outermost, at the instruction by which the native was called, and the call history is
the one that was taken at the place. -/
theorem failures_through_natives (hnatives : m.library.behaviours = Library.standard.behaviours)
    (hfaulty : m.EndsFaulty fuel p)
    (hfails : m.execute fuel p = some (.failed problems trace, m')) :
    (∃ worker t f, m.Locates p worker t f) ∧
      ∀ worker t f, m.Locates p worker t f → ∃ first calls, f.problems = #[first] ∧
        m.Awaits p t t.pending calls ∧
        t.machine.natives.toList.reverse = t.pending.filterMap Pending.entry? ∧
        problems.toList = first :: (calls.map fun call => call.2.hostProblem call.1 first) ∧
        trace = f.trace := by
  have hlibrary := Library.relays_of_standard hnatives
  refine ⟨hfaulty.locates, fun worker t f hlocates => ?_⟩
  obtain ⟨f₀, hfresh, hf⟩ := hlocates.report hlibrary
  obtain ⟨failure, message, hreport⟩ := t.machine.report_eq worker hfresh
  have hfirst : f.problems = #[t.machine.problemAt t.machine.ip failure message] := by
    rw [hf, hreport]
    rfl
  obtain ⟨hproblems, htrace⟩ := hlocates.ending hlibrary hfaulty hfails hfirst
  obtain ⟨calls, hcalls, hblame, hentries⟩ := hlocates.waits hlibrary
    (t.machine.problemAt t.machine.ip failure message)
  exact ⟨_, calls, hfirst, hcalls, hentries, by rw [hproblems, hblame], htrace⟩

end

/-!
# A failure inside two natives
-/

/-- The program `return [1].map(func(x) { return [x].map(func(y) { return missing }) })`. -/
def nestedMaps : List Stmt :=
  let inner := .func .zero Text.empty [⟨"y", none⟩]
    (.mk .zero [.ret .zero (some (.var .zero "missing"))])
  let outer := .func .zero Text.empty [⟨"x", none⟩] (.mk .zero [.ret .zero (some
    (.call .zero (.member .zero (.list .zero [.var .zero "x"]) "map") [inner]))])
  [.ret .zero (some (.call .zero (.member .zero (.list .zero [.number .zero 1]) "map") [outer]))]

/-- Whether an execution fails with as many problems and with a call history of this length. -/
def Ending.reports (problems length : Nat) : Ending → Bool
  | .failed ps trace => ps.size == problems && trace.size == length
  | .value _ => false

/-- Whether a run ended with a fault. -/
def Advance.isFaulty : Advance → Bool
  | .finished (.error _) _ => true
  | _ => false

theorem nestedMaps_fails : ∃ c problems trace m',
    (Compiler.compile .absent false nestedMaps).result = .ok c ∧
      standardEngine.EndsFaulty 100 c.program ∧
      standardEngine.execute 100 c.program = some (.failed problems trace, m') ∧
      problems.size = 3 ∧ trace.size = 5 := by
  obtain ⟨c, hcompiled, hends, hruns⟩ :
      ∃ c, (Compiler.compile .absent false nestedMaps).result = .ok c ∧
        (standardEngine.execute 100 c.program).any (fun r => r.1.reports 3 5) = true ∧
        (State.run 100 (standardEngine.start c.program)).any (·.isFaulty) = true :=
    ⟨_, rfl, by decide +kernel, by decide +kernel⟩
  obtain ⟨⟨ending, m'⟩, hexecute, hreports⟩ := (Option.any_eq_true _ _).mp hends
  have hfaulty : standardEngine.EndsFaulty 100 c.program := by
    intro _
    obtain ⟨a, hrun, hfails⟩ := (Option.any_eq_true _ _).mp hruns
    unfold Advance.isFaulty at hfails
    split at hfails
    · exact ⟨_, _, hrun⟩
    · cases hfails
  cases ending with
  | value v => cases hreports
  | failed problems trace =>
    obtain ⟨hproblems, htrace⟩ := Bool.and_eq_true_iff.mp hreports
    exact ⟨c, problems, trace, m', hcompiled, hfaulty, hexecute, beq_iff_eq.mp hproblems,
      beq_iff_eq.mp htrace⟩

theorem failures_through_natives_nestedMaps :
    ∃ c problems trace m' worker t f first calls,
      (Compiler.compile .absent false nestedMaps).result = .ok c ∧
      standardEngine.execute 100 c.program = some (.failed problems trace, m') ∧
      standardEngine.Locates c.program worker t f ∧ f.problems = #[first] ∧
      standardEngine.Awaits c.program t t.pending calls ∧ calls.length = 2 ∧
      problems.toList = first :: (calls.map fun call => call.2.hostProblem call.1 first) ∧
      trace = f.trace := by
  obtain ⟨c, problems, trace, m', hcompiled, hfaulty, hexecute, hthree, -⟩ := nestedMaps_fails
  obtain ⟨⟨worker, t, f, hlocates⟩, hall⟩ := failures_through_natives rfl hfaulty hexecute
  obtain ⟨first, calls, hfirst, hawaits, -, hproblems, htrace⟩ := hall worker t f hlocates
  have hlength : calls.length = 2 := by
    have hsize : problems.toList.length = 3 := hthree
    rw [hproblems] at hsize
    simpa using hsize
  exact ⟨c, problems, trace, m', worker, t, f, first, calls, hcompiled, hexecute, hlocates, hfirst,
    hawaits, hlength, hproblems, htrace⟩

end ScriptEngine
