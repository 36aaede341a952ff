import ScriptEngine.Proofs.Machine.Coordination

/-!
# Calls of closures

Everything that a transition can do to the store and to the calls in progress. One that puts a record
on the calls has entered a closure: an instruction did, or work that waits had the closure called.
Such a call lasts until its caller goes on or an outcome arrives.
-/

namespace ScriptEngine

/-- A transition that enters a closure. -/
inductive State.Begins : State → State → Prop
  | instruction {m m' : Machine} {pending : List Pending} {op : Op} {c : ClosureId} {cl : Closure}
    {args : List Value} (hop : m.ops[m.ip.toNat]? = some op) (hcalls : op.Calls)
    (h : m.Works (fun _ => False) m') (hcl : m'.world.store.closure? c = some cl)
    (hdepth : m'.calls.size < m'.options.maxDepth) :
    Begins ⟨m, pending, .running⟩ ⟨m'.entered cl args false Text.empty, pending, .running⟩
  | callback {m : Machine} {pending : List Pending} {c : ClosureId} {cl : Closure}
    {args : List Value} (hcl : m.world.store.closure? c = some cl)
    (hdepth : m.calls.size < m.options.maxDepth) :
    Begins ⟨m, pending, .invoking (.closure c) args⟩
      ⟨m.entered cl args true (m.natives.back?.getD Text.empty), .nested m.snapshot :: pending,
        .running⟩

/-- The frames in which the current instruction may bind names. -/
def State.Owns (s : State) (f : FrameId) : Prop :=
  s.mode = .running ∧ ∃ op, s.machine.ops[s.machine.ip.toNat]? = some op ∧ op.Owns s.machine f

/-- What a transition can do to the store, by the way in which it goes. -/
inductive State.Turn (w : Watch) (s s' : State) : Prop
  | begins (h : s.Begins s')
  | works (hstore : s.machine.world.store.Rewrites s.Owns s'.machine.world.store)
    (hcalls : s'.machine.calls.size ≤ s.machine.calls.size)
  | opens {fr : Frame} (hstore : s'.machine.world.store = (s.machine.world.store.newFrame fr).2)
    (hcalls : s'.machine.calls.size ≤ s.machine.calls.size)
  | builds {st : Store} {cl : Closure} (h : s.machine.world.store.Rewrites s.Owns st)
    (hstore : s'.machine.world.store = (st.newClosure cl).2)
    (hcalls : s'.machine.calls.size ≤ s.machine.calls.size)
  | natives (hstore : w.conduct s.machine.world.store s'.machine.world.store)
    (hcalls : s'.machine.calls.size ≤ s.machine.calls.size)

/-- The transition is one of those, or ends the run. -/
def Advance.Turns (w : Watch) (s : State) : Advance → Prop
  | .next s' => s.Turn w s'
  | _ => True

/-- The second state comes after the first one, before the call that began in front of the pending
work with `k` calls in progress is over, or just when it is. -/
inductive State.During (pending : List Pending) (k : Nat) (s : State) : State → Prop
  | refl : During pending k s s
  | step {s' s'' : State} (h : During pending k s s') (hopen : ¬ s'.Over pending k)
    (hnext : s'.advance = .next s'') : During pending k s s''

section
variable {w : Watch} {s s' : State} {m m' : Machine} {pending : List Pending}

/-!
# Instructions
-/

theorem turns_proceed {n : Exec.Next}
    (hturn : ∀ ip rest mode, s.Turn w ⟨{ m with ip := ip }, rest, mode⟩) :
    Advance.Turns w s (State.proceed pending n m) := by
  cases n with
  | next => exact hturn _ _ _
  | skip d => exact hturn _ _ _
  | stay => exact hturn m.ip _ _
  | call callee args => exact hturn m.ip _ _
  | done v => exact hturn m.ip _ _

/-- Work on values and bindings, whatever follows it. -/
theorem turns_works {own : FrameId → Prop} (hm : s.machine.Works own m)
    (hown : ∀ f, own f → s.Owns f) (ip : Int) (rest : List Pending) (mode : Mode) :
    s.Turn w ⟨{ m with ip := ip }, rest, mode⟩ :=
  .works (hm.store.mono hown) (Nat.le_of_eq (congrArg Array.size hm.calls))

theorem turns_stopped {own : FrameId → Prop} {e : Stop} (hm : s.machine.Works own m)
    (hown : ∀ f, own f → s.Owns f) : Advance.Turns w s (State.after pending (.error e m)) := by
  cases e with
  | crash message => trivial
  | fault f => exact turns_works hm hown m.ip _ _

/-- What an instruction can do. -/
theorem turns_step {op : Op} {j : Journal} (hop : m.ops[m.ip.toNat]? = some op) :
    Advance.Turns w ⟨m, pending, .running⟩
      (State.after pending (Exec.step op (m.withJournal j))) := by
  have hnothing : ∀ f, False → State.Owns ⟨m, pending, .running⟩ f := fun _ h => h.elim
  have hjournal : ∀ {own m'}, (m.withJournal j).Works own m' → m.Works own m' :=
    fun h => ⟨h.same, h.store⟩
  have hcalling : op.Calls → ∀ {r}, Exec.Calling (m.withJournal j) r →
      Advance.Turns w ⟨m, pending, .running⟩ (State.after pending r) := by
    rintro hcalls _ (hm | hm | ⟨hm, hcl, hdepth⟩)
    · exact turns_stopped (hjournal hm) hnothing
    · exact turns_works (hjournal hm) hnothing _ _ _
    · exact .begins (.instruction hop hcalls (hjournal hm) hcl hdepth)
  have hlocal : op.Local → Advance.Turns w ⟨m, pending, .running⟩
      (State.after pending (Exec.step op (m.withJournal j))) := by
    intro hlocal
    have hstep := Exec.works_step hlocal (m.withJournal j)
    have hown : ∀ f, op.Owns (m.withJournal j) f → State.Owns ⟨m, pending, .running⟩ f :=
      fun f hf => ⟨rfl, op, hop, by cases op <;> exact hf⟩
    unfold Exec.Works at hstep
    cases hrun : Exec.step op (m.withJournal j) with
    | ok n m' =>
      rw [hrun] at hstep
      exact turns_proceed (turns_works (hjournal hstep.1) hown)
    | error e m' =>
      rw [hrun] at hstep
      exact turns_stopped (hjournal hstep) hown
  cases op with
  | call => exact hcalling trivial (Exec.calling_call _)
  | dispatch op => exact hcalling trivial (Exec.calling_dispatch op _)
  | ret =>
    have hstep := Exec.returning_ret (m.withJournal j)
    generalize Exec.step .ret (m.withJournal j) = r at hstep
    have hpop : ∀ {m' : Machine}, (m.withJournal j).Works (fun _ => False) m' →
        m'.calls.pop.size ≤ m.calls.size := by
      intro m' hm
      rw [(hjournal hm).calls, Array.size_pop]
      exact Nat.sub_le _ _
    cases hstep with
    | crashed => trivial
    | ended hm => exact turns_works (hjournal hm) hnothing _ _ _
    | done hm => exact .works (hm.store.mono hnothing) (hpop hm)
    | onward hm => exact .works (hm.store.mono hnothing) (hpop hm)
  | scopeEnter => exact .opens rfl (Nat.le_refl _)
  | scopeExit =>
    have hstep := Exec.closing_scopeExit (m.withJournal j)
    generalize Exec.step .scopeExit (m.withJournal j) = r at hstep
    cases hstep with
    | crashed => trivial
    | left => exact .works (.refl _) (Nat.le_refl _)
  | buildFunc d =>
    have hstep := Exec.building_buildFunc d (m.withJournal j)
    generalize Exec.step (.buildFunc d) (m.withJournal j) = r at hstep
    cases hstep with
    | stopped hm => exact turns_stopped (hjournal hm) hnothing
    | built hm =>
      exact .builds (hm.store.mono hnothing) rfl
        (Nat.le_of_eq (congrArg Array.size (hjournal hm).calls))
  | _ => exact hlocal trivial

theorem turns_execute (m : Machine) (pending : List Pending) :
    Advance.Turns w ⟨m, pending, .running⟩ (State.execute m pending) := by
  rcases State.execute_cases m pending with ⟨_, _, h⟩ | ⟨h, -⟩ | ⟨f, h⟩ | ⟨op, j, -, hop, h⟩
  · rw [h]
    trivial
  · rw [h]
    exact .works (.refl _) (Nat.le_refl _)
  · rw [h]
    exact .works (.refl _) (Nat.le_refl _)
  · rw [h]
    exact turns_step hop

/-!
# Starting calls and handing over outcomes
-/

theorem size_shrink_le {α : Type} (a : Array α) (n : Nat) : (a.shrink n).size ≤ a.size := by
  rw [Array.size_shrink]
  exact Nat.min_le_right _ _

/-- The store is as it was, and no call is new. -/
theorem State.Turn.still (hstore : s'.machine.world.store = s.machine.world.store)
    (hcalls : s'.machine.calls.size ≤ s.machine.calls.size) : s.Turn w s' :=
  .works (hstore ▸ .refl _) hcalls

theorem turns_restored {sn : Snapshot} {o : Except Fault Value}
    (hstore : m.world.store = s.machine.world.store)
    (hcalls : m.calls.size ≤ s.machine.calls.size) :
    Advance.Turns w s (if m.covers sn then State.deliver (m.restore sn) pending o
      else .crashed Machine.restoreCrash m) := by
  split
  · exact .still hstore (Nat.le_trans (size_shrink_le _ _) hcalls)
  · trivial

theorem turns_handOver {info : NativeInfo} {sn : Snapshot} {action : World → Action}
    (hstore : m.world.store = s.machine.world.store) (hcalls : m.calls = s.machine.calls)
    (hconduct : (action m.world).Conducts w.conduct m.world.store) :
    Advance.Turns w s (State.handOver m pending info sn action) := by
  have hsize : m.calls.size ≤ s.machine.calls.size := Nat.le_of_eq (congrArg Array.size hcalls)
  unfold State.handOver
  dsimp only
  generalize action m.world = act at hconduct
  rw [hstore] at hconduct
  cases hconduct with
  | done h => exact .natives h hsize
  | @fail _ f w' h =>
    have hcut : (m.calls.shrink sn.calls).size ≤ s.machine.calls.size :=
      Nat.le_trans (size_shrink_le _ _) hsize
    show Advance.Turns w s (State.failNative { m with world := w' } pending info sn f)
    rcases State.failNative_cases { m with world := w' } pending info sn f with ⟨j, hj⟩ | hj
    · rw [hj]
      exact .natives h hcut
    · rw [hj]
      trivial
  | crash => trivial
  | invoke h => exact .natives h hsize

theorem turns_startNative (hw : w.Sound) (hm : w.Keeps m) (info : NativeInfo)
    (receiver : Option Value) (args : List Value) (mode : Mode) :
    Advance.Turns w ⟨m, pending, mode⟩ (State.startNative m pending info receiver args) := by
  have henter : Advance.Turns w ⟨m, pending, mode⟩
      (State.enterNative m pending info (Exec.withReceiver receiver args)) := by
    unfold State.enterNative
    split
    · exact .still rfl (Nat.le_refl _)
    · have hconduct := hw.natives info (Exec.withReceiver receiver args) m.world
      rw [← hm.library] at hconduct
      exact turns_handOver rfl rfl hconduct
  unfold State.startNative
  dsimp only
  split
  · split
    · exact .still rfl (Nat.le_refl _)
    · exact henter
  · exact henter

theorem turns_startConversion (m : Machine) (pending : List Pending) (t : TypeInfo)
    (args : List Value) (mode : Mode) :
    Advance.Turns w ⟨m, pending, mode⟩ (State.startConversion m pending t args) := by
  unfold State.startConversion
  split
  · rename_i v
    split
    · exact .still rfl (Nat.le_refl _)
    · have hworks := Exec.quiet_convert v t.name m
      unfold State.convertValue
      unfold Exec.Works at hworks
      cases hrun : Exec.effect (Native.convert v t.name) m with
      | ok a m' =>
        rw [hrun] at hworks
        exact turns_works (s := ⟨m, pending, mode⟩) hworks.1 (fun _ h => h.elim) m'.ip _ _
      | error e m' =>
        rw [hrun] at hworks
        cases e with
        | crash message => trivial
        | fault f =>
          exact turns_works (s := ⟨m, pending, mode⟩) hworks (fun _ h => h.elim) m'.ip _ _
  · exact .still rfl (Nat.le_refl _)

theorem turns_startConstruction (m : Machine) (pending : List Pending) (t : TypeInfo)
    (args : List Value) (mode : Mode) :
    Advance.Turns w ⟨m, pending, mode⟩ (State.startConstruction m pending t args) := by
  have hnew : ∀ {own : FrameId → Prop}, m.world.store.Rewrites own (m.world.store.newInstance t).2 :=
    .of_frames (.of_same rfl rfl) rfl
  have honStore : Exec.onStore (fun s => s.newInstance t) m =
      .ok (m.world.store.newInstance t).1 (m.withStore (m.world.store.newInstance t).2) := rfl
  unfold State.startConstruction
  rw [honStore]
  dsimp only
  split
  · exact .works hnew (Nat.le_refl _)
  · split
    · exact .works hnew (Nat.le_refl _)
    · split
      · obtain ⟨hframes, hclosures⟩ := State.fill_same (m.world.store.newInstance t).2
          (m.world.store.newInstance t).1 (t.fields.zip args)
        exact .works (hnew.trans (.of_frames (.of_same hframes hclosures) hframes)) (Nat.le_refl _)
      · exact .works hnew (Nat.le_refl _)

theorem turns_invoke (hw : w.Sound) (hm : w.Keeps m) (callee : Value) (args : List Value) :
    Advance.Turns w ⟨m, pending, .invoking callee args⟩ (State.invoke m pending callee args) := by
  cases callee with
  | closure c =>
    unfold State.invoke
    dsimp only
    split
    · rename_i cl hcl
      unfold State.startNested
      dsimp only
      rcases Exec.enterClosure_spec cl args true (m.natives.back?.getD Text.empty) m with
        ⟨hok, hdepth⟩ | ⟨f, hf⟩
      · rw [hok]
        exact .begins (.callback hcl hdepth)
      · rw [hf]
        exact turns_restored rfl (Nat.le_refl _)
    · trivial
  | native info => exact turns_startNative hw hm info none args _
  | bound info receiver => exact turns_startNative hw hm info (some receiver) args _
  | type t =>
    unfold State.invoke
    dsimp only
    split
    · exact turns_startConstruction m pending t args _
    · exact turns_startConversion m pending t args _
  | _ => exact .still rfl (Nat.le_refl _)

theorem turns_handOut {o : Except Fault Value} (hresume : ∀ info sn resume rest,
      pending = .native info sn resume :: rest → ∀ w', (resume o w').Conducts w.conduct w'.store) :
    Advance.Turns w ⟨m, pending, .delivering o⟩ (State.handOut m pending o) := by
  cases pending with
  | nil => trivial
  | cons work rest =>
    cases work with
    | nested sn =>
      cases o with
      | ok v => exact .still rfl (Nat.le_refl _)
      | error f => exact turns_restored rfl (Nat.le_refl _)
    | native info sn resume =>
      exact turns_handOver rfl rfl (hresume info sn resume rest rfl m.world)
    | construct i => exact .still rfl (Nat.le_refl _)
    | convert => exact .still rfl (Nat.le_refl _)
    | instruction =>
      cases o with
      | ok v => exact .still rfl (Nat.le_refl _)
      | error f => exact .still rfl (Nat.le_refl _)

/-- Natives that wait go on as natives may. -/
theorem Aligned.conducts {st : Store} {tier : Tier} (h : Aligned w st pending tier)
    (hfloor : ∀ tier, w.floor ≠ some (pending, tier)) {info : NativeInfo} {sn : Snapshot}
    {resume : Except Fault Value → World → Action} {rest : List Pending}
    (hpending : pending = .native info sn resume :: rest) (o : Except Fault Value) (w' : World) :
    (resume o w').Conducts w.conduct w'.store := by
  induction h with
  | floor h => exact absurd h (hfloor _)
  | root => cases hpending
  | called _ _ _ _ _ _ ih => exact ih hfloor hpending
  | nested => cases hpending
  | instruction => cases hpending
  | construct => cases hpending
  | convert => cases hpending
  | native _ _ _ hresume =>
    cases hpending
    exact hresume o w'

/-- A transition that does not leave the part of a run that is watched is one of those. -/
theorem InStep.turns (hw : w.Sound) (h : InStep w s) (hstay : ¬ w.Leaves s) :
    Advance.Turns w s s.advance := by
  cases h with
  | running => exact turns_execute _ _
  | invoking hm => exact turns_invoke hw hm _ _
  | settled _ hs =>
    exact turns_handOut fun _ _ _ _ hp w' => hs.conducts (Watch.floor_ne_of_delivering hstay) hp _ w'
  | returned => exact turns_handOut fun _ _ _ _ hp => by cases hp
  | ended => trivial
  | broken _ hs =>
    exact turns_handOut fun _ _ _ _ hp w' => hs.conducts (Watch.floor_ne_of_delivering hstay) hp _ w'

/-- Frames keep their links and closures their entries, whatever happens. -/
theorem State.Turn.extends (hw : w.Sound) (h : s.Turn w s') :
    s.machine.world.store.Extends s'.machine.world.store := by
  have hentered : ∀ (m : Machine) (cl : Closure) (args : List Value) (reentry : Bool)
      (native : Text), m.world.store.Extends (m.entered cl args reentry native).world.store := by
    intro m cl args reentry native
    obtain ⟨j, hj⟩ := m.entered_eq cl args reentry native
    rw [hj]
    exact (Store.Grows.newFrame m.world.store (m.callFrame cl args native)).toExtends
  cases h with
  | begins h =>
    cases h with
    | instruction _ _ h => exact h.store.toExtends.trans (hentered ..)
    | callback => exact hentered ..
  | works h => exact h.toExtends
  | opens h =>
    rw [h]
    exact (Store.Grows.newFrame _ _).toExtends
  | builds h hstore =>
    rw [hstore]
    exact h.toExtends.trans (.newClosure _ _)
  | natives h => exact (hw.grows h).toExtends

theorem InStep.turn (hw : w.Sound) (hfloor : w.floor = none) (h : InStep w s)
    (hnext : s.advance = .next s') : s.Turn w s' := by
  have hturn := h.turns hw (Watch.not_leaves hfloor s)
  rw [hnext] at hturn
  exact hturn

/-- A transition after which more calls are in progress has entered a closure. -/
theorem State.Turn.enters (h : s.Turn w s')
    (hdeeper : s.machine.calls.size < s'.machine.calls.size) : s.Begins s' := by
  cases h with
  | begins h => exact h
  | works _ hcalls => exact absurd hdeeper (Nat.not_lt.mpr hcalls)
  | opens _ hcalls => exact absurd hdeeper (Nat.not_lt.mpr hcalls)
  | builds _ _ hcalls => exact absurd hdeeper (Nat.not_lt.mpr hcalls)
  | natives _ hcalls => exact absurd hdeeper (Nat.not_lt.mpr hcalls)

/-- Entering a closure adds a frame and leaves the others. -/
theorem State.Begins.frame?_entered {f : FrameId} (h : s.Begins s')
    (hf : f < s.machine.world.store.frames.size) :
    s'.machine.world.store.frame? f = s.machine.world.store.frame? f := by
  have hentered : ∀ (m : Machine) (cl : Closure) (args : List Value) (reentry : Bool)
      (native : Text), f < m.world.store.frames.size →
      (m.entered cl args reentry native).world.store.frame? f = m.world.store.frame? f := by
    intro m cl args reentry native hlt
    obtain ⟨j, hj⟩ := m.entered_eq cl args reentry native
    rw [hj]
    exact Store.frame?_newFrame_of_lt (m.callFrame cl args native) hlt
  cases h with
  | instruction _ _ hworks =>
    rw [hentered _ _ _ _ _ (by rw [hworks.store.size]; exact hf)]
    exact hworks.store.others f id
  | callback => exact hentered _ _ _ _ _ hf

/-!
# Watching one call
-/

/-- The part of a run above a level, with all its frames from a bound on. -/
def Watch.above (w : Watch) (low : Nat) (pending : List Pending) (tier : Tier) : Watch :=
  { w with low := low, floor := some (pending, tier), stop := fun _ => True }

theorem Watch.Sound.above {low : Nat} {tier : Tier} (h : w.Sound) (hfloor : w.floor = none)
    (hlow : w.low ≤ low) (hfloored : ∀ q f, tier = .waiting q → q.frame = some f → f < low) :
    (w.above low pending tier).Sound where
  natives := h.natives
  floored hfloor hf := hfloored _ _ (congrArg Prod.snd (Option.some.inj hfloor)) hf
  grows := h.grows
  rests_conduct := h.rests_conduct
  rests_store := h.rests_store
  enters hentry hb hkind hle := h.enters hentry hb hkind (Nat.le_trans hlow hle)
  resumes := h.resumes
  calls _ := h.calls (Watch.covers_of_none hfloor _ _)
  builds _ := h.builds (Watch.covers_of_none hfloor _ _)
  onward _ := h.onward (Watch.covers_of_none hfloor _ _)

theorem Watch.Keeps.above {low : Nat} {tier : Tier} (h : w.Keeps m)
    (hlow : low ≤ m.world.store.frames.size) : (w.above low pending tier).Keeps m :=
  ⟨h.program, h.ops, h.library, h.depth, h.root, h.entries, hlow⟩

/-- A call can be watched from its beginning on, above the level that it is made from. Its frames
come after all that were there. -/
theorem State.Begins.above (hw : w.Sound) (hfloor : w.floor = none) (hs : InStep w s) (h : s.Begins s') :
    ∃ tier, tier.calls = s.machine.calls ∧
      (w.above s.machine.world.store.frames.size s.pending tier).Sound ∧
      InStep (w.above s.machine.world.store.frames.size s.pending tier) s' := by
  cases h with
  | @instruction m m' pending op c cl args hop hcalls hworks hcl hdepth =>
    cases hs with
    | @running _ _ g b hm hs hq hgoes =>
      have hw' : (w.above m.world.store.frames.size pending (.active g b)).Sound :=
        hw.above hfloor hm.low fun q f h => by cases h
      have hm' : (w.above m.world.store.frames.size pending (.active g b)).Keeps m' :=
        (hm.works hworks).above (Nat.le_of_eq hworks.store.size.symm)
      have hq' := hq.works hworks
      have hrests := hw.calls (Watch.covers_of_none hfloor b _) (hm.ops ▸ hop) hcalls hgoes hworks
      have hgrows := Store.Grows.newFrame m'.world.store (m'.callFrame cl args Text.empty)
      refine ⟨.active g b, hq.calls.symm, hw', ?_⟩
      refine inStep_entered hw' hm' hcl (fun f hf => hq'.frame_lt hf) ?_
      rintro st rfl hcalled
      exact .called (.floor rfl) (hq'.extends hgrows.toExtends)
        (hw.rests_store hrests hgrows.toExtends fun _ _ => .newFrame _) hcalled hm'.low
        (hm'.depth ▸ hdepth)
  | @callback m pending c cl args hcl hdepth =>
    cases hs with
    | invoking hm hs =>
      have hw' : (w.above m.world.store.frames.size pending (.waiting m.stance)).Sound := by
        refine hw.above hfloor hm.low fun q f h hf => ?_
        cases h
        exact hs.frame_lt hw hm.low hf
      have hm' : (w.above m.world.store.frames.size pending (.waiting m.stance)).Keeps m :=
        hm.above (Nat.le_refl _)
      refine ⟨.waiting m.stance, rfl, hw', ?_⟩
      refine inStep_entered hw' hm' hcl (fun f hf => hs.frame_lt hw hm.low hf) ?_
      rintro st rfl hcalled
      exact .nested (.floor rfl) m.stance_matches hcalled hm'.low (hm'.depth ▸ hdepth)

namespace State

theorem During.cons {k : Nat} {s₁ : State} (hopen : ¬ s.Over pending k) (hnext : s.advance = .next s₁)
    (h : During pending k s₁ s') : During pending k s s' := by
  induction h with
  | refl => exact .step .refl hopen hnext
  | step _ hopen' hnext' ih => exact .step ih hopen' hnext'

/-- Whether the engine is at an instruction of a call with `k` others in progress. -/
def runsAbove (k : Nat) (s : State) : Bool :=
  match s.mode with
  | .running => k < s.machine.calls.size
  | _ => false

theorem runsAbove.not_over {k : Nat} (h : s.runsAbove k = true) : ¬ s.Over pending k := by
  rintro ⟨-, hle⟩
  unfold runsAbove at h
  split at h
  · rename_i hmode
    exact Nat.not_le_of_lt (of_decide_eq_true h) (hle hmode)
  · cases h

/-- The state after some instructions of a call with `k` others in progress. -/
def stepsAbove (k : Nat) : Nat → State → Option State
  | 0, s => some s
  | n + 1, s =>
    if s.runsAbove k then
      match s.advance with
      | .next s => stepsAbove k n s
      | _ => none
    else none

theorem During.of_steps {k n : Nat} (h : s.stepsAbove k n = some s') : During pending k s s' := by
  induction n generalizing s with
  | zero =>
    cases h
    exact .refl
  | succ n ih =>
    unfold stepsAbove at h
    split at h
    · rename_i hruns
      split at h
      · rename_i s₁ hnext
        exact .cons (runsAbove.not_over hruns) hnext (ih h)
      · cases h
    · cases h

end State

end
end ScriptEngine
