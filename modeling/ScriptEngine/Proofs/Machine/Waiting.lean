import ScriptEngine.Proofs.Execution.Unwinding
import ScriptEngine.Proofs.Native.Callbacks
import ScriptEngine.Proofs.Native.Endings
import ScriptEngine.Proofs.Native.Standard

/-!
# Work that waits

One transition leaves the pending work alone, takes the work on top off, or puts one piece of work on
top; a native that asks for another call stays where it is, with a new way to go on. So each native that
waits does so since one call of it, and the work below it is what waited then.
-/

namespace ScriptEngine

/-- The native that goes on like this relays, and fails with the fault that it is given. -/
structure Relaying (resume : Except Fault Value → World → Action) : Prop where
  ok : ∀ v w, (resume (.ok v) w).Relays w.store
  error : ∀ f w, resume (.error f) w = .fail f w

/-- The engine has nothing called on behalf of the work on top. -/
def Mode.Quiet : Mode → Prop
  | .invoking _ _ => False
  | _ => True

/-- What one transition does with the pending work. -/
inductive State.Stacks (s : State) : State → Prop
  | kept {m : Machine} {mode : Mode} (hmode : mode.Quiet) : Stacks s ⟨m, s.pending, mode⟩
  | answered {m : Machine} {work : Pending} {rest : List Pending} {mode : Mode}
    (hpending : s.pending = work :: rest) (hmode : mode.Quiet) : Stacks s ⟨m, rest, mode⟩
  | called {m : Machine} {callee : Value} {args : List Value} (hs : s.mode = .running)
    (hcallee : ∀ c, callee ≠ .closure c) :
    Stacks s ⟨m, .instruction :: s.pending, .invoking callee args⟩
  | entered {m : Machine} {c : ClosureId} {args : List Value}
    (hs : s.mode = .invoking (.closure c) args) :
    Stacks s ⟨m, .nested s.machine.snapshot :: s.pending, .running⟩
  | constructed {m : Machine} {i : InstanceId} {callee : Value} {args : List Value} :
    Stacks s ⟨m, .construct i :: s.pending, .invoking callee args⟩
  | converted {m : Machine} {callee : Value} {args : List Value} :
    Stacks s ⟨m, .convert :: s.pending, .invoking callee args⟩
  | asked {m : Machine} {n : NativeInfo} {receiver : Option Value} {given : List Value}
    {resume : Except Fault Value → World → Action} {callee : Value} {args : List Value}
    (hs : s.mode = .invoking (Value.callable n receiver) given) (hresume : Relaying resume) :
    Stacks s ⟨m, .native n s.machine.snapshot resume :: s.pending, .invoking callee args⟩
  | again {m : Machine} {n : NativeInfo} {sn : Snapshot}
    {resume resume' : Except Fault Value → World → Action} {rest : List Pending} {callee : Value}
    {args : List Value} (hpending : s.pending = .native n sn resume :: rest)
    (hresume : Relaying resume') :
    Stacks s ⟨m, .native n sn resume' :: rest, .invoking callee args⟩

/-- The transition ends the run or does this with the pending work. -/
def Advance.Stacks (s : State) : Advance → Prop
  | .next u => s.Stacks u
  | _ => True

/-- An instruction hands no closure to the engine. -/
theorem Exec.handed_callee {op : Op} {m m' : Machine} {callee : Value} {args : List Value}
    (h : Exec.step op m = .ok (.call callee args) m') (c : ClosureId) : callee ≠ .closure c := by
  have hcalling : ∀ {r}, Exec.Calling m r → r = .ok (.call callee args) m' → callee ≠ .closure c := by
    rintro _ (_ | ⟨_, hcallee⟩ | _) hr
    · cases hr
    · cases hr
      exact hcallee c
    · cases hr
  have hlocal : op.Local → callee ≠ .closure c := by
    intro hop
    have hstep := Exec.works_step hop m
    unfold Exec.Works at hstep
    rw [h] at hstep
    exact absurd hstep.2 id
  cases op with
  | call => exact hcalling (Exec.calling_call m) h
  | dispatch op => exact hcalling (Exec.calling_dispatch op m) h
  | ret =>
    have hstep := Exec.returning_ret m
    rw [h] at hstep
    cases hstep
  | scopeEnter => cases h
  | scopeExit =>
    have hstep := Exec.closing_scopeExit m
    rw [h] at hstep
    cases hstep
  | buildFunc d =>
    have hstep := Exec.building_buildFunc d m
    rw [h] at hstep
    cases hstep
  | _ => exact hlocal trivial

namespace State

section
variable {m : Machine} {pending : List Pending} {s : State}

theorem execute_stacks : Advance.Stacks ⟨m, pending, .running⟩ (execute m pending) := by
  rcases execute_cases m pending with ⟨_, _, h⟩ | ⟨h, -⟩ | ⟨_, h⟩ | ⟨op, j, -, -, h⟩
  · rw [h]
    trivial
  · rw [h]
    exact .kept trivial
  · rw [h]
    exact .kept trivial
  · rw [h]
    cases hstep : Exec.step op (m.withJournal j) with
    | error e m' =>
      cases e with
      | fault f => exact .kept trivial
      | crash message => trivial
    | ok onward m' =>
      cases onward with
      | call callee args => exact .called rfl (Exec.handed_callee hstep)
      | _ => exact .kept trivial

/-- A native at work ends, or asks for a call and waits. -/
theorem follow_relays {n : NativeInfo} {sn : Snapshot} {st : Store} {a : Action} {t : State}
    (h : a.Relays st) (hnext : follow m pending n sn a = .next t) :
    (∃ m' o, t = ⟨m', pending, .delivering o⟩) ∨
      ∃ m' resume callee args, Relaying resume ∧
        t = ⟨m', .native n sn resume :: pending, .invoking callee args⟩ := by
  cases h with
  | done =>
    cases hnext
    exact .inl ⟨_, _, rfl⟩
  | fail =>
    obtain ⟨m', e, rfl⟩ := failNative_mode hnext
    exact .inl ⟨m', _, rfl⟩
  | crash => cases hnext
  | invoke _ hok herror =>
    cases hnext
    exact .inr ⟨_, _, _, _, ⟨hok, herror⟩, rfl⟩

theorem startNative_stacks {n : NativeInfo} {receiver : Option Value} {args : List Value}
    (hlibrary : m.library.Relays) :
    Advance.Stacks ⟨m, pending, .invoking (Value.callable n receiver) args⟩
      (startNative m pending n receiver args) := by
  by_cases htakes : Takes n (Exec.withReceiver receiver args)
  · rw [startNative_takes htakes]
    by_cases hfull : nativeLimit ≤ m.natives.size
    · obtain ⟨message, hrefused⟩ := enterNative_full
        (Exec.withReceiver receiver args) hfull
      rw [hrefused]
      exact .kept trivial
    · rw [enterNative_action (Nat.lt_of_not_le hfull)]
      cases hnext : follow { m with world := default, natives := m.natives.push n.name } pending n
          m.snapshot (m.library.behaviour n (Exec.withReceiver receiver args) m.world) with
      | next t =>
        rcases follow_relays (hlibrary n _ m.world) hnext with
          ⟨m', o, rfl⟩ | ⟨m', resume, callee, args', hresume, rfl⟩
        · exact .kept trivial
        · exact .asked rfl hresume
      | finished | crashed => trivial
  · obtain ⟨message, hrefused⟩ := startNative_refused htakes
    rw [hrefused]
    exact .kept trivial

theorem startConversion_stacks {t : TypeInfo} {args : List Value} :
    Advance.Stacks ⟨m, pending, .invoking (.type t) args⟩ (startConversion m pending t args) := by
  unfold startConversion
  split
  · split
    · exact .converted
    · unfold convertValue
      split
      · exact .kept trivial
      · exact .kept trivial
      · trivial
  · exact .kept trivial

theorem startConstruction_stacks {t : TypeInfo} {args : List Value} :
    Advance.Stacks ⟨m, pending, .invoking (.type t) args⟩ (startConstruction m pending t args) := by
  unfold startConstruction
  split
  · trivial
  split
  · exact .constructed
  split
  · exact .kept trivial
  split
  · split
    · trivial
    · exact .kept trivial
  · exact .kept trivial

theorem startNested_stacks {c : ClosureId} {cl : Closure} {args : List Value} :
    Advance.Stacks ⟨m, pending, .invoking (.closure c) args⟩ (startNested m pending cl args) := by
  unfold startNested
  dsimp only
  split
  · exact .entered rfl
  · split
    · exact .kept trivial
    · trivial
  · trivial

theorem invoke_stacks {callee : Value} {args : List Value} (hlibrary : m.library.Relays) :
    Advance.Stacks ⟨m, pending, .invoking callee args⟩ (invoke m pending callee args) := by
  cases callee with
  | closure c =>
    unfold invoke
    dsimp only
    split
    · exact startNested_stacks
    · trivial
  | native n => exact startNative_stacks hlibrary
  | bound n receiver => exact startNative_stacks hlibrary
  | type t =>
    unfold invoke
    dsimp only
    split
    · exact startConstruction_stacks
    · exact startConversion_stacks
  | _ => exact .kept trivial

/-- A native that waited for a call fails with it. -/
theorem handOut_error {n : NativeInfo} {sn : Snapshot}
    {resume : Except Fault Value → World → Action} (h : ∀ f w, resume (.error f) w = .fail f w)
    (f : Fault) :
    handOut m (.native n sn resume :: pending) (.error f) = failNative m pending n sn f := by
  show follow { m with world := default } pending n sn (resume (.error f) m.world) = _
  rw [h]
  rfl

/-- The outcome of a call goes to the work on top. -/
theorem handOut_stacks {o : Except Fault Value}
    (hwaits : ∀ n sn resume, .native n sn resume ∈ pending → Relaying resume) :
    Advance.Stacks ⟨m, pending, .delivering o⟩ (handOut m pending o) := by
  cases pending with
  | nil => trivial
  | cons work rest =>
    cases work with
    | nested sn =>
      unfold handOut endNested
      dsimp only
      split
      · exact .answered rfl trivial
      · split
        · exact .answered rfl trivial
        · trivial
    | construct i => exact .answered rfl trivial
    | convert => exact .answered rfl trivial
    | instruction =>
      unfold handOut endInstruction
      dsimp only
      split
      · exact .answered rfl trivial
      · exact .answered rfl trivial
    | native n sn resume =>
      have hresume := hwaits n sn resume List.mem_cons_self
      cases o with
      | ok v =>
        show Advance.Stacks _ (follow { m with world := default } rest n sn (resume (.ok v) m.world))
        cases hnext : follow { m with world := default } rest n sn (resume (.ok v) m.world) with
        | next t =>
          rcases follow_relays (hresume.ok v m.world) hnext with
            ⟨m', o, rfl⟩ | ⟨m', resume', callee, args, hresume', rfl⟩
          · exact .answered rfl trivial
          · exact .again rfl hresume'
        | finished | crashed => trivial
      | error f =>
        rw [handOut_error hresume.error]
        cases hnext : failNative m rest n sn f with
        | next t =>
          obtain ⟨m', e, rfl⟩ := failNative_mode hnext
          exact .answered rfl trivial
        | finished | crashed => trivial

theorem advance_stacks (hlibrary : s.machine.library.Relays)
    (hwaits : ∀ n sn resume, .native n sn resume ∈ s.pending → Relaying resume) :
    Advance.Stacks s s.advance := by
  obtain ⟨m, pending, mode⟩ := s
  cases mode with
  | running => exact execute_stacks
  | invoking callee args => exact invoke_stacks hlibrary
  | delivering o => exact handOut_stacks hwaits

end
end State

/-!
# Runs
-/

section
variable {m : Machine} {p : Program} {s t : State} {n : NativeInfo} {sn : Snapshot}
  {resume : Except Fault Value → World → Action} {rest : List Pending}

/-- The native is at work on a call that has not ended since the state `c`, in which it was made. -/
structure Machine.Waits (m : Machine) (p : Program) (s : State) (n : NativeInfo) (sn : Snapshot)
    (rest : List Pending) (c : State) : Prop where
  reached : m.Reaches p c
  calls : ∃ receiver args, c.mode = .invoking (Value.callable n receiver) args
  pending : c.pending = rest
  snapshot : sn = c.machine.snapshot
  beneath : c.Beneath s

/-- The native goes on waiting as long as the work below it stays. -/
theorem Machine.Waits.step {c : State} (h : m.Waits p s n sn rest c)
    (hdeep : rest.length < s.pending.length) (hnext : s.advance = .next t) :
    m.Waits p t n sn rest c where
  reached := h.reached
  calls := h.calls
  pending := h.pending
  snapshot := h.snapshot
  beneath := h.beneath.deeper (h.pending.symm ▸ hdeep) hnext

/-- All natives that wait relay, and do so since a call of them. -/
def Machine.Waiting (m : Machine) (p : Program) (s : State) : Prop :=
  ∀ above n sn resume rest, s.pending = above ++ .native n sn resume :: rest →
    Relaying resume ∧ ∃ c, m.Waits p s n sn rest c

theorem Machine.Waiting.relaying (h : m.Waiting p s) (hmem : .native n sn resume ∈ s.pending) :
    Relaying resume := by
  obtain ⟨above, rest, heq⟩ := List.append_of_mem hmem
  exact (h above n sn resume rest heq).1

theorem State.Stacks.waiting (hstacks : s.Stacks t) (hreached : m.Reaches p s) (h : m.Waiting p s)
    (hnext : s.advance = .next t) : m.Waiting p t := by
  have hold : ∀ above n sn resume rest, s.pending = above ++ .native n sn resume :: rest →
      Relaying resume ∧ ∃ c, m.Waits p t n sn rest c := by
    intro above n sn resume rest heq
    obtain ⟨hresume, c, hc⟩ := h above n sn resume rest heq
    refine ⟨hresume, c, hc.step ?_ hnext⟩
    rw [heq, List.length_append, List.length_cons]
    omega
  intro above n sn resume rest heq
  cases hstacks with
  | kept => exact hold above n sn resume rest heq
  | answered hpending =>
    exact hold (_ :: above) n sn resume rest (hpending.trans (congrArg _ heq))
  | called | entered | constructed | converted =>
    obtain ⟨above, rfl, htail⟩ := List.append_eq_cons_iff.mp heq.symm |>.resolve_left (by simp)
    exact hold above n sn resume rest htail
  | @asked m' n' receiver given resume' callee args hs hresume =>
    rcases List.append_eq_cons_iff.mp heq.symm with ⟨rfl, htail⟩ | ⟨above, rfl, htail⟩
    · cases htail
      exact ⟨hresume, s, hreached, ⟨receiver, given, hs⟩, rfl, rfl, .asked hnext⟩
    · exact hold above n sn resume rest htail
  | @again m' n' sn' resume' resume'' rest' callee args hpending hresume =>
    rcases List.append_eq_cons_iff.mp heq.symm with ⟨rfl, htail⟩ | ⟨above, rfl, htail⟩
    · cases htail
      exact ⟨hresume, (hold [] n sn resume' rest hpending).2⟩
    · exact hold (_ :: above) n sn resume rest (hpending.trans (congrArg _ htail))

theorem Machine.Reaches.library (hcalls : m.library.CallsOnly) (h : m.Reaches p s) :
    s.machine.library = m.library :=
  (h.plain hcalls).keeps.library

theorem Machine.Reaches.waiting (hlibrary : m.library.Relays) (h : m.Reaches p s) :
    m.Waiting p s := by
  unfold Machine.Reaches at h
  induction h with
  | refl => exact fun above n sn resume rest heq => by simp [Machine.start] at heq
  | @step s t hs hnext ih =>
    have hstacks := State.advance_stacks (s := s)
      (Machine.Reaches.library hlibrary.callsOnly hs ▸ hlibrary) fun n sn resume => ih.relaying
    rw [hnext] at hstacks
    exact hstacks.waiting hs ih hnext

theorem Machine.Reaches.stacks (hlibrary : m.library.Relays) (h : m.Reaches p s) :
    Advance.Stacks s s.advance :=
  State.advance_stacks (h.library hlibrary.callsOnly ▸ hlibrary) fun _ _ _ =>
    (h.waiting hlibrary).relaying

/-- No closure is called by an instruction that waits: an instruction enters closures itself. -/
structure State.Direct (s : State) : Prop where
  nested : ∀ above sn rest, s.pending ≠ above ++ .nested sn :: .instruction :: rest
  invoking : ∀ c args rest, s.mode = .invoking (.closure c) args → s.pending ≠ .instruction :: rest

theorem State.Stacks.direct (hstacks : s.Stacks t) (h : s.Direct) : t.Direct := by
  have hquiet : ∀ {mode : Mode} {c args}, mode.Quiet → mode ≠ .invoking (.closure c) args := by
    rintro _ c args hmode rfl
    exact hmode
  cases hstacks with
  | kept hmode => exact ⟨h.nested, fun c args rest hinvoking => absurd hinvoking (hquiet hmode)⟩
  | answered hpending hmode =>
    refine ⟨fun above sn rest heq => ?_, fun c args rest hinvoking => absurd hinvoking (hquiet hmode)⟩
    exact h.nested (_ :: above) sn rest (hpending.trans (congrArg _ heq))
  | called hs hcallee =>
    refine ⟨fun above sn rest heq => ?_, fun c args rest hinvoking => ?_⟩
    · obtain ⟨above, rfl, htail⟩ := List.append_eq_cons_iff.mp heq.symm |>.resolve_left (by simp)
      exact h.nested above sn rest htail
    · cases hinvoking
      exact absurd rfl (hcallee c)
  | @entered m' c args hs =>
    refine ⟨fun above sn rest heq => ?_, fun c args rest hinvoking => by cases hinvoking⟩
    rcases List.append_eq_cons_iff.mp heq.symm with ⟨rfl, htail⟩ | ⟨above, rfl, htail⟩
    · exact h.invoking c args rest hs (List.cons.inj htail).2.symm
    · exact h.nested above sn rest htail
  | constructed | converted | asked =>
    refine ⟨fun above sn rest heq => ?_, fun c args rest _ heq => by cases heq⟩
    obtain ⟨above, rfl, htail⟩ := List.append_eq_cons_iff.mp heq.symm |>.resolve_left (by simp)
    exact h.nested above sn rest htail
  | again hpending =>
    refine ⟨fun above sn rest heq => ?_, fun c args rest _ heq => by cases heq⟩
    obtain ⟨above, rfl, htail⟩ := List.append_eq_cons_iff.mp heq.symm |>.resolve_left (by simp)
    exact h.nested (_ :: above) sn rest (hpending.trans (congrArg _ htail))

theorem Machine.Reaches.direct (hlibrary : m.library.Relays) (h : m.Reaches p s) : s.Direct := by
  unfold Machine.Reaches at h
  induction h with
  | refl => exact ⟨fun above sn rest heq => by simp [Machine.start] at heq,
      fun c args rest hinvoking => by cases hinvoking⟩
  | @step s t hs hnext ih =>
    have hstacks := Machine.Reaches.stacks hlibrary hs
    rw [hnext] at hstacks
    exact hstacks.direct ih

end
end ScriptEngine
