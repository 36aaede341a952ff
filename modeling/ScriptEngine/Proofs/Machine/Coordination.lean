import ScriptEngine.Proofs.Machine.Alignment

/-!
# Transitions keep the stacks parallel

Instructions that stay in a function leave the levels of a run, calls and natives put a level on
top, and outcomes take levels off again. Together with the levels goes whatever a watch says about
activations.
-/

namespace ScriptEngine

/-- A call that began in front of the pending work with `k` calls in progress is over: its outcome
has arrived, or the caller goes on. -/
def State.Over (pending : List Pending) (k : Nat) (s : State) : Prop :=
  s.pending = pending ∧ (s.mode = .running → s.machine.calls.size ≤ k)

/-- An activation in front of the pending work, whose call is the last one of `k`, is over: it has
returned, or its outcome has arrived. -/
def State.Left (pending : List Pending) (k : Nat) (s : State) : Prop :=
  s.pending = pending ∧ (s.mode = .running → s.machine.calls.size < k)

/-- The next transition leaves the part of a run that is watched: it hands an outcome to the floor, or
the activation that is the floor returns or has come to where it is no longer watched. -/
def Watch.Leaves (w : Watch) (s : State) : Prop :=
  ∃ pending tier, w.floor = some (pending, tier) ∧ s.Over pending tier.calls.size ∧
    (s.mode = .running → w.stop s.machine.ip ∨
      ∃ s', s.advance = .next s' ∧ s'.Left pending tier.calls.size)

section
variable {w : Watch} {m m' : Machine} {pending : List Pending} {g : Base} {b : FrameId} {q : Stance}

/-!
# Instructions
-/

theorem inStep_onward {n : Exec.Next} (hn : n.Onward) (hm : w.Keeps m)
    (hs : Aligned w m.world.store pending (.active g b)) (hq : m.stance.In m.world.store g b)
    (hgoes : w.goes m.world.store m.stack (n.target m.ip) m.frame b) :
    Advance.InStep w (State.proceed pending n m) := by
  have hm' : ∀ ip : Int, w.Keeps { m with ip := ip } :=
    fun ip => hm.of_same rfl rfl rfl rfl rfl (.refl _)
  cases n with
  | next => exact .running (hm' _) hs (hq.moved _) hgoes
  | skip d => exact .running (hm' _) hs (hq.moved _) hgoes
  | stay | call | done => exact absurd hn id

/-- An instruction that works on values and binds names leads on or leaves a failed activation. -/
theorem inStep_works (hw : w.Sound) {op : Op} {own : FrameId → Prop} (hm : w.Keeps m)
    (hs : Aligned w m.world.store pending (.active g b)) (hq : m.stance.In m.world.store g b)
    (hgoes : w.goes m.world.store m.stack m.ip m.frame b) (hb : w.Covers b m.ip)
    (hop : w.ops[m.ip.toNat]? = some op) (hret : op ≠ .ret) (hstep : Exec.Works own (Exec.step op) m Exec.Next.Onward) :
    Advance.InStep w (State.after pending (Exec.step op m)) := by
  unfold Exec.Works at hstep
  cases hrun : Exec.step op m with
  | ok n m' =>
    rw [hrun] at hstep
    obtain ⟨hworks, hn⟩ := hstep
    exact inStep_onward hn (hm.works hworks) (hs.rewrites hw hworks.store) (hq.works hworks)
      (hw.onward hb hop hret hgoes hrun hn)
  | error e m' =>
    rw [hrun] at hstep
    cases e with
    | crash message => trivial
    | fault f =>
      exact .broken (hm.works hstep) (hs.rewrites hw hstep.store) (hq.works hstep).toOn

/-- A closure that was entered stands at its beginning, on the stance of its caller. -/
theorem inStep_entered (hw : w.Sound) {c : ClosureId} {cl : Closure} {args : List Value}
    {reentry : Bool} {native : Text} {pending' : List Pending} (hm : w.Keeps m)
    (hcl : m.world.store.closure? c = some cl)
    (hframe : ∀ f, m.frame = some f → f < m.world.store.frames.size)
    (hs : ∀ s, s = (m.world.store.newFrame (m.callFrame cl args native)).2 →
      s.CalledFrom (w.span m.ip) native m.stance cl.frame m.world.store.frames.size →
      Aligned w s pending' (.active (m.stance.base cl.frame m.stack.height reentry)
        m.world.store.frames.size)) :
    InStep w ⟨m.entered cl args reentry native, pending', .running⟩ := by
  obtain ⟨j, hj⟩ := m.entered_eq cl args reentry native
  have hnew := Store.newFrame_frame? m.world.store (m.callFrame cl args native)
  have hgrows := Store.Grows.newFrame m.world.store (m.callFrame cl args native)
  have hspan : w.span m.ip = m.spanAt m.ip := by
    unfold Watch.span Machine.spanAt Machine.entryAt
    rw [hm.program]
  have hcalled : (m.world.store.newFrame (m.callFrame cl args native)).2.CalledFrom (w.span m.ip)
      native m.stance cl.frame m.world.store.frames.size := by
    refine ⟨m.callFrame cl args native, Store.closureName cl, hnew, ?_, rfl, hframe⟩
    rw [hspan]
    rfl
  rw [hj]
  refine .running (g := m.stance.base cl.frame m.stack.height reentry)
    (b := m.world.store.frames.size) (hm.of_same rfl rfl rfl rfl rfl hgrows) (hs _ rfl hcalled) ?_ ?_
  · exact ⟨⟨rfl, rfl, rfl⟩, _, _, rfl, .here hnew rfl⟩
  · exact hw.enters (hm.entries c cl hcl) hnew rfl hm.low

theorem Stance.In.frame_lt {s : Store} (hq : q.In s g b) {f : FrameId} (hf : q.frame = some f) :
    f < s.frames.size := by
  obtain ⟨f', n, hf', habove⟩ := hq.frame
  obtain ⟨rfl⟩ : f = f' := Option.some.inj (hf.symm.trans hf')
  obtain ⟨fr, hfr⟩ := habove.frame
  exact (Array.getElem?_eq_some_iff.mp hfr).1

theorem inStep_call (hw : w.Sound) {op : Op} (hm : w.Keeps m)
    (hs : Aligned w m.world.store pending (.active g b)) (hq : m.stance.In m.world.store g b)
    (hgoes : w.goes m.world.store m.stack m.ip m.frame b) (hb : w.Covers b m.ip)
    (hop : w.ops[m.ip.toNat]? = some op) (hcalls : op.Calls) (hstep : Exec.Calling m (Exec.step op m)) :
    Advance.InStep w (State.after pending (Exec.step op m)) := by
  generalize Exec.step op m = r at hstep
  cases hstep with
  | @stopped e m' hworks =>
    cases e with
    | crash message => trivial
    | fault f =>
      exact .broken (hm.works hworks) (hs.rewrites hw hworks.store) (hq.works hworks).toOn
  | @handed callee args m' hworks =>
    exact .invoking (hm.works hworks) (.instruction (hs.rewrites hw hworks.store) (hq.works hworks)
      (hw.calls hb hop hcalls hgoes hworks))
  | @entered m' c cl args hworks hcl hdepth =>
    have hm' := hm.works hworks
    have hq' := hq.works hworks
    have hrests := hw.calls hb hop hcalls hgoes hworks
    have hgrows := Store.Grows.newFrame m'.world.store (m'.callFrame cl args Text.empty)
    refine inStep_entered hw hm' hcl (fun f hf => hq'.frame_lt hf) ?_
    rintro s rfl hcalled
    refine .called ((hs.rewrites hw hworks.store).newFrame hw _) (hq'.extends hgrows.toExtends)
      (hw.rests_store hrests hgrows.toExtends fun _ _ => .newFrame _) hcalled hm'.low ?_
    rw [← hm'.depth]
    exact hdepth

/-!
# Returns
-/

/-- A return finds the stance of the caller. -/
theorem back_stance {site : Option Span} {native : Text} {around : Option FrameId} {depth : Nat}
    {reentry : Bool} {b' : FrameId} {fr : Frame} (record : CallRecord) (j : Journal)
    (hq : m.stance.In m.world.store (q.base around depth reentry) b)
    (hcalled : m.world.store.CalledFrom site native q around b)
    (hb : m.world.store.boundary m.frame = some b') (hfr : m.world.store.frame? b' = some fr) :
    (m.back record fr.caller j).stance = { q with ip := m.ip } := by
  obtain ⟨f, n, hf, habove⟩ := hq.frame
  have hf : m.frame = some f := hf
  rw [hf, habove.boundary] at hb
  cases hb
  obtain ⟨fr', name, hfr', hkind, -, -⟩ := hcalled
  rw [hfr] at hfr'
  cases hfr'
  have hcaller : fr.caller = q.frame := by
    unfold Frame.caller
    rw [hkind]
  have hcaptured : m.captured.pop = q.captured := by
    rw [show m.captured = _ from hq.captured]
    exact Array.pop_push
  have hcalls : m.calls.pop = q.calls := by
    rw [show m.calls = _ from hq.calls]
    exact Array.pop_push
  show Stance.mk fr.caller m.captured.pop m.calls.pop m.natives m.ip = _
  rw [hcaller, hcaptured, hcalls, show m.natives = _ from hq.natives]
  rfl

theorem back_record {around : Option FrameId} {depth : Nat} {reentry : Bool} {record : CallRecord}
    (hq : m.stance.In m.world.store (q.base around depth reentry) b)
    (hcalls : m.calls.back? = some record) : record = ⟨q.ip, depth, reentry⟩ := by
  rw [show m.calls = _ from hq.calls] at hcalls
  exact (Option.some.inj (Array.back?_push.symm.trans hcalls)).symm

theorem inStep_ret (hw : w.Sound) (hm : w.Keeps m)
    (hs : Aligned w m.world.store pending (.active g b)) (hq : m.stance.In m.world.store g b)
    (hstay : w.floor ≠ some (pending, .active g b)) :
    Advance.InStep w (State.after pending (Exec.step .ret m)) := by
  have hstep := Exec.returning_ret m
  generalize Exec.step .ret m = r at hstep
  cases hstep with
  | crashed => trivial
  | @ended v m' hworks hcalls =>
    have hq' := hq.works hworks
    have hs' := hs.rewrites hw hworks.store
    cases hs' with
    | floor h => exact absurd h hstay
    | root h hb hkind => exact .ended (hm.works hworks) h hq'.toOn
    | called =>
      rw [show m'.calls = _ from hq'.calls, Stance.base, Array.back?_push] at hcalls
      cases hcalls
    | nested =>
      rw [show m'.calls = _ from hq'.calls, Stance.base, Array.back?_push] at hcalls
      cases hcalls
  | @done v m' record b' fr j hworks hcalls hreentry hb hfr =>
    have hq' := hq.works hworks
    have hs' := hs.rewrites hw hworks.store
    have hm' : w.Keeps (m'.back record fr.caller j) :=
      (hm.works hworks).of_same rfl rfl rfl rfl rfl (.refl _)
    cases hs' with
    | floor h => exact absurd h hstay
    | root =>
      rw [show m'.calls = _ from hq'.calls] at hcalls
      cases hcalls
    | called =>
      rw [back_record hq' hcalls] at hreentry
      cases hreentry
    | nested h hsn hcalled =>
      exact .returned hm' h hsn (back_stance record j hq' hcalled hb hfr)
  | @onward v m' record b' fr j hworks hcalls hreentry hb hfr =>
    have hq' := hq.works hworks
    have hs' := hs.rewrites hw hworks.store
    cases hs' with
    | floor h => exact absurd h hstay
    | root =>
      rw [show m'.calls = _ from hq'.calls] at hcalls
      cases hcalls
    | @called _ g₀ b₀ _ q around depth h hq₀ hrests hcalled =>
      have hrecord := back_record hq' hcalls
      have hstance := back_stance record j hq' hcalled hb hfr
      subst hrecord
      refine inStep_onward (n := .next) trivial ((hm.works hworks).of_same rfl rfl rfl rfl rfl (.refl _)) h
        ?_ ?_
      · show Stance.In { (m'.back ⟨q.ip, depth, false⟩ fr.caller j).stance with ip := q.ip }
          m'.world.store g₀ b₀
        rw [hstance]
        exact hq₀.moved q.ip
      · have hframe : (m'.back ⟨q.ip, depth, false⟩ fr.caller j).frame = q.frame :=
          congrArg Stance.frame hstance
        rw [← hframe] at hrests
        exact hw.resumes hrests
    | nested =>
      rw [back_record hq' hcalls] at hreentry
      cases hreentry

/-!
# Scopes and closures
-/

theorem inStep_scopeEnter (hw : w.Sound) (hm : w.Keeps m)
    (hs : Aligned w m.world.store pending (.active g b)) (hq : m.stance.In m.world.store g b)
    (hgoes : w.goes m.world.store m.stack m.ip m.frame b) (hcovers : w.Covers b m.ip)
    (hop : w.ops[m.ip.toNat]? = some .scopeEnter) :
    Advance.InStep w (State.after pending (Exec.step .scopeEnter m)) := by
  obtain ⟨f, n, hf, habove⟩ := hq.frame
  have hf : m.frame = some f := hf
  have hgrows := Store.Grows.newFrame m.world.store ⟨Table.empty, m.frame, .block⟩
  have hnew : (m.world.store.newBlock m.frame).2.Above (m.world.store.newBlock m.frame).1 (n + 1) b :=
    .block (Store.newFrame_frame? m.world.store ⟨Table.empty, m.frame, .block⟩) rfl hf
      (hq.frame_lt hf) (habove.extends hgrows.toExtends)
  have honward := hw.onward hcovers hop (fun h => by cases h) hgoes (Exec.step_scopeEnter m) trivial
  rw [Exec.step_scopeEnter]
  refine inStep_onward (n := .next) trivial (hm.of_same rfl rfl rfl rfl rfl hgrows) (hs.newFrame hw _) ?_
    honward
  exact ⟨⟨hq.captured, hq.calls, hq.natives⟩, _, _, rfl, hnew⟩

theorem inStep_scopeExit (hw : w.Sound) (hm : w.Keeps m)
    (hs : Aligned w m.world.store pending (.active g b)) (hq : m.stance.In m.world.store g b)
    (hgoes : w.goes m.world.store m.stack m.ip m.frame b) (hcovers : w.Covers b m.ip)
    (hop : w.ops[m.ip.toNat]? = some .scopeExit) :
    Advance.InStep w (State.after pending (Exec.step .scopeExit m)) := by
  have hstep := Exec.closing_scopeExit m
  have honward := fun m' hrun =>
    @Watch.Sound.onward w hw m m' _ .next b hcovers hop (fun h => by cases h) hgoes hrun trivial
  generalize Exec.step .scopeExit m = r at hstep honward
  cases hstep with
  | crashed => trivial
  | @left f fr hf hfr hkind =>
    refine inStep_onward (n := .next) trivial (hm.of_same rfl rfl rfl rfl rfl (.refl _)) hs ?_
      (honward _ rfl)
    obtain ⟨f', n, hf', habove⟩ := hq.frame
    obtain ⟨rfl⟩ : f = f' := Option.some.inj (hf.symm.trans hf')
    cases habove with
    | here hb hboundary =>
      rw [hfr] at hb
      cases hb
      rw [hkind] at hboundary
      cases hboundary
    | block hb _ houter _ habove =>
      rw [hfr] at hb
      cases hb
      exact ⟨⟨hq.captured, hq.calls, hq.natives⟩, _, _, houter, habove⟩

theorem inStep_buildFunc (hw : w.Sound) {d : Int} (hm : w.Keeps m) (hip : 0 ≤ m.ip)
    (hs : Aligned w m.world.store pending (.active g b)) (hq : m.stance.In m.world.store g b)
    (hgoes : w.goes m.world.store m.stack m.ip m.frame b) (hcovers : w.Covers b m.ip)
    (hop : w.ops[m.ip.toNat]? = some (.buildFunc d)) :
    Advance.InStep w (State.after pending (Exec.step (.buildFunc d) m)) := by
  have hstep := Exec.building_buildFunc d m
  have honward := fun m' hrun =>
    @Watch.Sound.onward w hw m m' _ (.skip d) b hcovers hop (fun h => by cases h) hgoes hrun trivial
  generalize Exec.step (.buildFunc d) m = r at hstep honward
  cases hstep with
  | @stopped e m' hworks =>
    cases e with
    | crash message => trivial
    | fault f =>
      exact .broken (hm.works hworks) (hs.rewrites hw hworks.store) (hq.works hworks).toOn
  | @built m' params hworks =>
    have hm' := hm.works hworks
    have hextends := Store.Extends.newClosure m'.world.store
      ⟨m.ip + 1, m.frame, params, Text.empty, none⟩
    refine inStep_onward (n := .skip d) trivial ?_ ?_ ((hq.works hworks).extends hextends)
      (honward _ rfl)
    · refine ⟨hm'.program, hm'.ops, hm'.library, hm'.depth, hm'.root, ?_, hm'.low⟩
      intro c cl hc
      have hc : (m'.world.store.closures.push _)[c]? = some cl := hc
      rw [Array.getElem?_push] at hc
      split at hc
      · cases hc
        exact hw.builds hcovers hip hop hgoes
      · exact hm'.entries c cl hc
    · exact (hs.rewrites hw hworks.store).extends hextends fun _ _ _ hr =>
        hw.rests_store hr hextends fun _ _ h => h

/-!
# The current instruction
-/

/-- Executing ends the run, fails, or is one step of the current instruction, which the journal may
be told about. -/
theorem State.execute_cases (m : Machine) (pending : List Pending) :
    (∃ message m', State.execute m pending = .crashed message m') ∨
      (State.execute m pending = State.deliver m pending (.ok .null) ∧ m.calls.isEmpty = true) ∨
      (∃ f, State.execute m pending = State.deliver m pending (.error f)) ∨
      ∃ op j, 0 ≤ m.ip ∧ m.ops[m.ip.toNat]? = some op ∧
        State.execute m pending = State.after pending (Exec.step op (m.withJournal j)) := by
  obtain ⟨j, hj⟩ : ∃ j, (if m.options.trace then m.tell .debug State.traceLine else m) =
      m.withJournal j := by
    split
    · exact m.tell_eq .debug State.traceLine
    · exact ⟨m.world.journal, rfl⟩
  unfold State.execute
  split
  · exact Or.inl ⟨_, _, rfl⟩
  split
  · split
    · rename_i hcalls
      exact Or.inr (Or.inl ⟨rfl, hcalls⟩)
    · exact Or.inr (Or.inr (Or.inl ⟨_, rfl⟩))
  split
  · exact Or.inl ⟨_, _, rfl⟩
  · rename_i hip
    rw [hj]
    cases hop : m.ops[m.ip.toNat]? with
    | none =>
      refine Or.inl ⟨Exec.absent, m.withJournal j, ?_⟩
      simp only [show (m.withJournal j).ops[(m.withJournal j).ip.toNat]? = none from hop]
    | some op =>
      refine Or.inr (Or.inr (Or.inr ⟨op, j, Int.not_lt.mp hip, rfl, ?_⟩))
      simp only [show (m.withJournal j).ops[(m.withJournal j).ip.toNat]? = some op from hop]
      rfl

/-- Where an instruction that returns is executed, or none is left, the activation is over. -/
theorem State.execute_left {s' : State} (hret : ∀ op, m.ops[m.ip.toNat]? = some op → op = .ret)
    (hnext : State.execute m pending = .next s') : s'.Left pending m.calls.size := by
  have hdelivered : ∀ {m' : Machine} {o : Except Fault Value},
      State.deliver m' pending o = .next s' → s'.Left pending m.calls.size := by
    intro m' o h
    cases h
    exact ⟨rfl, fun hmode => by cases hmode⟩
  rcases State.execute_cases m pending with ⟨_, _, h⟩ | ⟨h, -⟩ | ⟨f, h⟩ | ⟨op, j, -, hop, h⟩
  · rw [h] at hnext
    cases hnext
  · exact hdelivered (h.symm.trans hnext)
  · exact hdelivered (h.symm.trans hnext)
  · rw [h, hret op hop] at hnext
    have hstep := Exec.returning_ret (m.withJournal j)
    generalize Exec.step .ret (m.withJournal j) = r at hstep hnext
    cases hstep with
    | crashed => cases hnext
    | ended => exact hdelivered hnext
    | done => exact hdelivered hnext
    | @onward v m' record b' fr j' hworks hcalls =>
      cases hnext
      refine ⟨rfl, fun _ => ?_⟩
      have hsame : m'.calls = m.calls := hworks.calls
      have hpos : 0 < m'.calls.size := Array.size_pos_iff.mpr fun hempty => by
        rw [hempty] at hcalls
        cases hcalls
      show m'.calls.pop.size < m.calls.size
      rw [Array.size_pop, hsame]
      exact Nat.sub_one_lt_of_lt (hsame ▸ hpos)

theorem execute_inStep (hw : w.Sound) (hm : w.Keeps m)
    (hs : Aligned w m.world.store pending (.active g b)) (hq : m.stance.In m.world.store g b)
    (hgoes : w.goes m.world.store m.stack m.ip m.frame b)
    (hstay : ∀ tier, w.floor = some (pending, tier) → tier.calls.size < m.calls.size ∨
      ¬ w.stop m.ip ∧ ∀ s', State.execute m pending = .next s' → ¬ s'.Left pending tier.calls.size) :
    Advance.InStep w (State.execute m pending) := by
  have hwatched : ∀ tier, w.floor = some (pending, tier) → tier = .active g b →
      ¬ w.stop m.ip ∧ ∀ s', State.execute m pending = .next s' → ¬ s'.Left pending m.calls.size := by
    rintro tier h rfl
    have hcalls : (Tier.active g b).calls = m.calls := hq.calls.symm
    rcases hstay _ h with hlt | hstay
    · rw [hcalls] at hlt
      exact absurd hlt (Nat.lt_irrefl _)
    · rw [hcalls] at hstay
      exact hstay
  rcases State.execute_cases m pending with ⟨_, _, h⟩ | ⟨h, hcalls⟩ | ⟨f, h⟩ | ⟨op, j, hip, hop, h⟩
  · rw [h]
    trivial
  · have hempty : m.calls.size = 0 := by simpa using hcalls
    rw [show m.calls = g.calls from hq.calls] at hempty
    rw [h]
    cases hs with
    | floor hfl => exact absurd ⟨rfl, fun hmode => by cases hmode⟩ ((hwatched _ hfl rfl).2 _ h)
    | root hfloor => exact .ended hm hfloor hq.toOn
    | called =>
      rw [Stance.base, Array.size_push] at hempty
      cases hempty
    | nested =>
      rw [Stance.base, Array.size_push] at hempty
      cases hempty
  · rw [h]
    exact .broken hm hs hq.toOn
  · rw [h]
    have hm' : w.Keeps (m.withJournal j) := hm.of_same rfl rfl rfl rfl rfl (.refl _)
    have hop' : w.ops[(m.withJournal j).ip.toNat]? = some op := by
      rw [← hm.ops]
      exact hop
    have hb : w.Covers b m.ip := fun hne => by
      by_cases hfl : w.floor = some (pending, .active g b)
      · exact Or.inr (hwatched _ hfl rfl).1
      · exact Or.inl (hs.low_le hne hfl)
    cases op with
    | call => exact inStep_call hw hm' hs hq hgoes hb hop' trivial (Exec.calling_call _)
    | dispatch op => exact inStep_call hw hm' hs hq hgoes hb hop' trivial (Exec.calling_dispatch op _)
    | ret =>
      cases hnext : State.after pending (Exec.step .ret (m.withJournal j)) with
      | next s' =>
        rw [← hnext]
        refine inStep_ret hw hm' hs hq fun hfl => ?_
        rw [hnext] at h
        refine (hwatched _ hfl rfl).2 s' h (State.execute_left (fun op' hop' => ?_) h)
        rw [hop] at hop'
        exact (Option.some.inj hop').symm
      | finished | crashed => trivial
    | scopeEnter => exact inStep_scopeEnter hw hm' hs hq hgoes hb hop'
    | scopeExit => exact inStep_scopeExit hw hm' hs hq hgoes hb hop'
    | buildFunc d => exact inStep_buildFunc hw hm' hip hs hq hgoes hb hop'
    | _ =>
      exact inStep_works hw hm' hs hq hgoes hb hop' (fun h => by cases h)
        (Exec.works_step (by exact trivial) _)

/-!
# Natives
-/

/-- A fault on its way to waiting work, whose stance is restored. -/
theorem inStep_restored {sn : Snapshot} {f : Fault} (hm : w.Keeps m) (hbelow : q.Below m.stance)
    (hsn : q.Matches sn) (hs : Aligned w m.world.store pending (.waiting q)) :
    Advance.InStep w (if m.covers sn then State.deliver (m.restore sn) pending (.error f)
      else .crashed Machine.restoreCrash m) := by
  split
  · refine .settled (hm.of_same rfl rfl rfl rfl rfl (.refl _)) ?_
    rw [hbelow.restore hsn]
    exact hs
  · trivial

theorem Machine.stance_outOfNative {name : Text} (hq : m.stance = q.within name) :
    m.outOfNative.stance = q := by
  have hnatives : m.natives.pop = q.natives := by
    rw [show m.natives = q.natives.push name from congrArg Stance.natives hq]
    exact Array.pop_push
  show { m.stance with natives := m.natives.pop } = q
  rw [hq, hnatives]
  rfl

/-- A native that fails is left as its snapshot says, and the journal may be told about it. -/
theorem State.failNative_cases (m : Machine) (pending : List Pending) (info : NativeInfo)
    (sn : Snapshot) (f : Fault) :
    (∃ j, State.failNative m pending info sn f =
      State.deliver ((m.outOfNative.restore sn).withJournal j) pending
        (.error (State.nativeFault (m.outOfNative.restore sn) info f))) ∨
      State.failNative m pending info sn f = .crashed Machine.restoreCrash m.outOfNative := by
  have htold := Machine.tell_eq (m.outOfNative.restore sn) .debug fun _ =>
    "native " ++ info.name ++ " failed: " ++
      (State.nativeFault (m.outOfNative.restore sn) info f).message
  unfold State.failNative
  dsimp only
  split
  · refine Or.inl ?_
    cases f with
    | located => exact ⟨m.world.journal, rfl⟩
    | raised failure message =>
      obtain ⟨j, hj⟩ := htold
      exact ⟨j, by rw [← hj]; rfl⟩
    | foreign text =>
      obtain ⟨j, hj⟩ := htold
      exact ⟨j, by rw [← hj]; rfl⟩
  · exact Or.inr rfl

theorem failNative_inStep {info : NativeInfo} {sn : Snapshot} {f : Fault} (hm : w.Keeps m)
    (hq : m.stance = q.within info.name) (hsn : q.Matches sn)
    (hs : Aligned w m.world.store pending (.waiting q)) :
    Advance.InStep w (State.failNative m pending info sn f) := by
  have hstance : (m.outOfNative.restore sn).stance = q := by
    refine Stance.Below.restore ?_ hsn
    rw [Machine.stance_outOfNative hq]
    exact .refl q
  rcases State.failNative_cases m pending info sn f with ⟨j, h⟩ | h
  · rw [h]
    refine .settled (hm.of_same rfl rfl rfl rfl rfl (.refl _)) ?_
    show Aligned w m.world.store pending (.waiting (m.outOfNative.restore sn).stance)
    rw [hstance]
    exact hs
  · rw [h]
    trivial

/-- A native at work ends, or asks for a call in the stance in which it works. -/
theorem handOver_inStep (hw : w.Sound) {info : NativeInfo} {sn : Snapshot} {action : World → Action}
    (hm : w.Keeps m) (hq : m.stance = q.within info.name) (hsn : q.Matches sn)
    (hlimit : q.natives.size < nativeLimit) (hs : Aligned w m.world.store pending (.waiting q))
    (hconduct : (action m.world).Conducts w.conduct m.world.store) :
    Advance.InStep w (State.handOver m pending info sn action) := by
  unfold State.handOver
  dsimp only
  generalize action m.world = act at hconduct
  cases hconduct with
  | @done _ result w' hr =>
    refine .settled (m := { m with world := w', natives := m.natives.pop })
      (hm.of_same rfl rfl rfl rfl rfl (hw.grows hr)) ?_
    show Aligned w w'.store pending (.waiting m.outOfNative.stance)
    rw [Machine.stance_outOfNative hq]
    exact hs.conduct hw hr
  | @fail _ f w' hr =>
    exact failNative_inStep (m := { m with world := w' })
      (hm.of_same rfl rfl rfl rfl rfl (hw.grows hr)) hq hsn (hs.conduct hw hr)
  | crash => trivial
  | @invoke _ callee args w' resume hr hresume =>
    refine .invoking (m := { m with world := w' }) (hm.of_same rfl rfl rfl rfl rfl (hw.grows hr)) ?_
    show Aligned w w'.store (.native info sn resume :: pending) (.waiting m.stance)
    rw [hq]
    exact .native (hs.conduct hw hr) hsn hlimit hresume

theorem startNative_inStep (hw : w.Sound) {info : NativeInfo} {receiver : Option Value}
    {args : List Value} (hm : w.Keeps m)
    (hs : Aligned w m.world.store pending (.waiting m.stance)) :
    Advance.InStep w (State.startNative m pending info receiver args) := by
  have henter : Advance.InStep w
      (State.enterNative m pending info (Exec.withReceiver receiver args)) := by
    unfold State.enterNative
    split
    · exact .settled hm hs
    · rename_i hlimit
      have hconduct := hw.natives info (Exec.withReceiver receiver args) m.world
      rw [← hm.library] at hconduct
      exact handOver_inStep (m := { m with natives := m.natives.push info.name }) hw
        (hm.of_same rfl rfl rfl rfl rfl (.refl _)) rfl m.stance_matches (Nat.lt_of_not_le hlimit) hs
        hconduct
  unfold State.startNative
  dsimp only
  split
  · split
    · exact .settled hm hs
    · exact henter
  · exact henter

/-!
# Starting calls
-/

theorem startConversion_inStep (hw : w.Sound) {t : TypeInfo} {args : List Value} (hm : w.Keeps m)
    (hs : Aligned w m.world.store pending (.waiting m.stance)) :
    Advance.InStep w (State.startConversion m pending t args) := by
  unfold State.startConversion
  split
  · split
    · exact .invoking (hm.of_same rfl rfl rfl rfl rfl (.refl _)) (.convert hs)
    · rename_i v _ _
      have hworks := Exec.quiet_convert v t.name m
      unfold State.convertValue
      unfold Exec.Works at hworks
      cases hrun : Exec.effect (Native.convert v t.name) m with
      | ok a m' =>
        rw [hrun] at hworks
        refine .settled (hm.works hworks.1) ?_
        rw [hworks.1.stance]
        exact hs.rewrites hw hworks.1.store
      | error e m' =>
        rw [hrun] at hworks
        cases e with
        | crash message => trivial
        | fault f =>
          refine .settled (hm.works hworks) ?_
          rw [hworks.stance]
          exact hs.rewrites hw hworks.store
  · exact .settled hm hs

theorem startConstruction_inStep (hw : w.Sound) {t : TypeInfo} {args : List Value} (hm : w.Keeps m)
    (hs : Aligned w m.world.store pending (.waiting m.stance)) :
    Advance.InStep w (State.startConstruction m pending t args) := by
  have hnew : m.world.store.Rewrites (fun _ => False) (m.world.store.newInstance t).2 :=
    .of_frames (.of_same rfl rfl) rfl
  have hm' : w.Keeps (m.withStore (m.world.store.newInstance t).2) := hm.grows hnew.toGrows
  have hs' := hs.rewrites hw hnew
  have honStore : Exec.onStore (fun s => s.newInstance t) m =
      .ok (m.world.store.newInstance t).1 (m.withStore (m.world.store.newInstance t).2) := rfl
  unfold State.startConstruction
  rw [honStore]
  dsimp only
  split
  · exact .invoking (hm'.of_same rfl rfl rfl rfl rfl (.refl _)) (.construct hs')
  · split
    · exact .settled hm' hs'
    · split
      · obtain ⟨hframes, hclosures⟩ := State.fill_same (m.world.store.newInstance t).2
          (m.world.store.newInstance t).1 (t.fields.zip args)
        have hfill : (m.world.store.newInstance t).2.Rewrites (fun _ => False)
            (State.startConstruction.fill (m.world.store.newInstance t).2
              (m.world.store.newInstance t).1 (t.fields.zip args)) :=
          .of_frames (.of_same hframes hclosures) hframes
        exact .settled (hm'.grows hfill.toGrows) (hs'.rewrites hw hfill)
      · exact .settled hm' hs'

/-- Work that waits does so in a frame of the store. -/
theorem Aligned.frame_lt (hw : w.Sound) {s : Store} (hlow : w.low ≤ s.frames.size)
    (h : Aligned w s pending (.waiting q)) {f : FrameId} (hf : q.frame = some f) :
    f < s.frames.size := by
  generalize htier : Tier.waiting q = tier at h
  induction h generalizing q with
  | floor h =>
    subst htier
    exact Nat.lt_of_lt_of_le (hw.floored h hf) hlow
  | root => cases htier
  | called => cases htier
  | nested => cases htier
  | instruction _ hq =>
    cases htier
    exact hq.frame_lt hf
  | @construct _ q₀ _ _ ih =>
    cases htier
    exact @ih q₀ hf rfl
  | @convert _ q₀ _ ih =>
    cases htier
    exact @ih q₀ hf rfl
  | @native _ q₀ _ _ _ _ _ _ _ ih =>
    cases htier
    exact @ih q₀ hf rfl

theorem startNested_inStep (hw : w.Sound) {c : ClosureId} {cl : Closure} {args : List Value}
    (hm : w.Keeps m) (hs : Aligned w m.world.store pending (.waiting m.stance))
    (hcl : m.world.store.closure? c = some cl) :
    Advance.InStep w (State.startNested m pending cl args) := by
  unfold State.startNested
  dsimp only
  rcases Exec.enterClosure_spec cl args true (m.natives.back?.getD Text.empty) m with
    ⟨hok, hdepth⟩ | ⟨f, hf⟩
  · rw [hok]
    refine inStep_entered hw hm hcl (fun f hf => hs.frame_lt hw hm.low hf) ?_
    rintro s rfl hcalled
    refine .nested (hs.newFrame hw _) m.stance_matches hcalled hm.low ?_
    rw [← hm.depth]
    exact hdepth
  · rw [hf]
    exact inStep_restored hm (.refl _) m.stance_matches hs

theorem invoke_inStep (hw : w.Sound) {callee : Value} {args : List Value} (hm : w.Keeps m)
    (hs : Aligned w m.world.store pending (.waiting m.stance)) :
    Advance.InStep w (State.invoke m pending callee args) := by
  cases callee with
  | closure c =>
    unfold State.invoke
    dsimp only
    split
    · rename_i cl hcl
      exact startNested_inStep hw hm hs hcl
    · trivial
  | native info => exact startNative_inStep hw hm hs
  | bound info receiver => exact startNative_inStep hw hm hs
  | type t =>
    unfold State.invoke
    dsimp only
    split
    · exact startConstruction_inStep hw hm hs
    · exact startConversion_inStep hw hm hs
  | _ => exact .settled hm hs

/-!
# Handing over outcomes
-/

/-- An outcome for waiting work, which goes on in its stance. -/
theorem handOut_waiting (hw : w.Sound) {o : Except Fault Value} (hm : w.Keeps m)
    (hs : Aligned w m.world.store pending (.waiting m.stance))
    (hstay : ∀ tier, w.floor ≠ some (pending, tier)) :
    Advance.InStep w (State.handOut m pending o) := by
  generalize htier : Tier.waiting m.stance = tier at hs
  cases hs with
  | floor h => exact absurd h (hstay _)
  | root => cases htier
  | called => cases htier
  | nested => cases htier
  | instruction h hq hrests =>
    cases htier
    unfold State.handOut State.endInstruction
    cases o with
    | ok v =>
      exact .running (hm.of_same rfl rfl rfl rfl rfl (.refl _)) h (hq.moved _) (hw.resumes hrests)
    | error f => exact .broken hm h hq.toOn
  | construct h =>
    refine .settled (hm.of_same rfl rfl rfl rfl rfl (.refl _)) ?_
    show Aligned w _ _ (.waiting m.outOfNative.stance)
    rw [Machine.stance_outOfNative (Tier.waiting.inj htier)]
    exact h
  | convert h =>
    refine .settled (hm.of_same rfl rfl rfl rfl rfl (.refl _)) ?_
    show Aligned w _ _ (.waiting m.outOfNative.stance)
    rw [Machine.stance_outOfNative (Tier.waiting.inj htier)]
    exact h
  | native h hsn hlimit hresume =>
    exact handOver_inStep hw hm (Tier.waiting.inj htier) hsn hlimit h (hresume o m.world)

theorem Watch.not_leaves (hfloor : w.floor = none) (s : State) : ¬ w.Leaves s := by
  rintro ⟨pending, tier, h, -⟩
  rw [hfloor] at h
  cases h

/-- No outcome arrives in the part of a run that is watched. -/
theorem Watch.floor_ne_of_delivering {m : Machine} {pending : List Pending} {o : Except Fault Value}
    (hstay : ¬ w.Leaves ⟨m, pending, .delivering o⟩) (tier : Tier) : w.floor ≠ some (pending, tier) :=
  fun hfloor => hstay ⟨pending, tier, hfloor, ⟨rfl, fun hmode => by cases hmode⟩,
    fun hmode => by cases hmode⟩

/-- One transition keeps the stacks parallel, unless it leaves the part of the run that is
watched. -/
theorem advance_inStep (hw : w.Sound) {s : State} (h : InStep w s) (hstay : ¬ w.Leaves s) :
    Advance.InStep w s.advance := by
  cases h with
  | @running m pending g b hm hs hq hgoes =>
    refine execute_inStep hw hm hs hq hgoes fun tier hfloor => ?_
    refine (Nat.lt_or_ge tier.calls.size m.calls.size).imp_right fun hle => ?_
    refine ⟨fun hstop => hstay ⟨pending, tier, hfloor, ⟨rfl, fun _ => hle⟩, fun _ => Or.inl hstop⟩,
      fun s' hnext hleft => hstay ⟨pending, tier, hfloor, ⟨rfl, fun _ => hle⟩, fun _ => Or.inr ?_⟩⟩
    exact ⟨s', hnext, hleft⟩
  | invoking hm hs => exact invoke_inStep hw hm hs
  | settled hm hs => exact handOut_waiting hw hm hs (Watch.floor_ne_of_delivering hstay)
  | @returned m pending q sn v hm hs hsn hq =>
    refine .settled (hm.of_same rfl rfl rfl rfl rfl (.refl _)) ?_
    have hstance : ({ m with ip := sn.ip } : Machine).stance = q := by
      show { m.stance with ip := sn.ip } = q
      rw [hq, hsn.ip]
    rw [hstance]
    exact hs
  | ended => trivial
  | @broken m pending g b f hm hs hq =>
    rcases hs.unwind with rfl | ⟨tier, hfloor⟩ | ⟨q, sn, rest, rfl, hsn, hwaits, hcap, hcalls, hnat⟩
    · trivial
    · exact absurd hfloor (Watch.floor_ne_of_delivering hstay tier)
    · refine inStep_restored hm ?_ hsn hwaits
      refine ⟨?_, ?_, ?_⟩
      · rw [show m.stance.captured = g.captured from hq.captured]
        exact hcap
      · rw [show m.stance.calls = g.calls from hq.calls]
        exact hcalls
      · rw [show m.stance.natives = g.natives from hq.natives, hnat]

/-!
# Runs
-/

/-- A run that is watched as a whole stays in step. -/
theorem State.Leads.inStep (hw : w.Sound) (hfloor : w.floor = none) {s s' : State} (hs : InStep w s)
    (h : s.Leads s') : InStep w s' := by
  induction h with
  | refl => exact hs
  | @step s' s'' _ hnext ih =>
    have hadvance := advance_inStep hw ih (Watch.not_leaves hfloor s')
    rw [hnext] at hadvance
    exact hadvance

/-- A program begins in step, if closures of earlier runs begin where they may. -/
theorem Machine.start_inStep {p : Program} (hfloor : w.floor = none) (hp : w.program = p)
    (hops : w.ops = (Op.ofProgram p).ops) (hlibrary : w.library = m.library)
    (hdepth : w.depth = m.options.maxDepth) (hroot : w.root = some m.world.store.frames.size)
    (hlow : w.low = 0)
    (hentries : ∀ c cl, m.world.store.closure? c = some cl → w.entry cl.entry)
    (hgoes : ∀ s st b fr, s.frame? b = some fr → fr.isBoundary = true → w.goes s st 0 (some b) b) :
    InStep w (m.start p) := by
  obtain ⟨j, hj⟩ := m.loaded_eq p
  have hframe := Store.newFrame_frame? m.world.store
    ⟨Table.empty, none, .boundary m.options.rootName none none Text.empty⟩
  unfold Machine.start
  rw [hj]
  refine .running (g := ⟨#[], #[], #[]⟩) (b := m.world.store.frames.size) ?_
    (.root hfloor hroot hframe rfl) ?_ ?_
  · refine ⟨by rw [hp], hops.symm, hlibrary.symm, hdepth.symm, hroot.symm, ?_,
      by rw [hlow]; exact Nat.zero_le _⟩
    exact fun c cl hc => hentries c cl hc
  · exact ⟨⟨rfl, rfl, rfl⟩, _, _, rfl, .here hframe rfl⟩
  · exact hgoes _ _ _ _ hframe rfl

/-- A whole run of a program, about which nothing more is said than where its closures begin. -/
def Watch.whole (m : Machine) (p : Program) (entry : Int → Prop) : Watch where
  program := p
  ops := (Op.ofProgram p).ops
  library := m.library
  depth := m.options.maxDepth
  root := some m.world.store.frames.size
  conduct := Store.Grows
  entry := entry
  goes _ _ _ _ _ := True
  rests _ _ _ _ := True
  low := 0
  floor := none
  stop _ := True

theorem Watch.whole_sound {p : Program} {entry : Int → Prop} (h : m.library.CallsOnly)
    (hentry : ∀ {i : Nat} {d : Int}, (Op.ofProgram p).ops[i]? = some (.buildFunc d) →
      entry (i + 1)) : (Watch.whole m p entry).Sound where
  natives := h.conducts
  floored h := by cases h
  grows h := h
  rests_conduct _ _ := trivial
  rests_store _ _ _ := trivial
  enters _ _ _ _ := trivial
  resumes _ := trivial
  calls _ _ _ _ _ := trivial
  builds _ hip hop _ := Int.toNat_of_nonneg hip ▸ hentry hop
  onward _ _ _ _ _ _ := trivial

theorem Machine.Reaches.inStep {p : Program} {entry : Int → Prop} {s : State}
    (hw : (Watch.whole m p entry).Sound)
    (hentries : ∀ c cl, m.world.store.closure? c = some cl → entry cl.entry)
    (h : m.Reaches p s) : InStep (Watch.whole m p entry) s :=
  State.Leads.inStep hw rfl
    (Machine.start_inStep rfl rfl rfl rfl rfl rfl rfl hentries fun _ _ _ _ _ _ => trivial) h

/-- A whole run of a program, about which nothing more is said. -/
def Watch.plain (m : Machine) (p : Program) : Watch :=
  Watch.whole m p fun _ => True

theorem Watch.plain_sound {p : Program} (h : m.library.CallsOnly) : (Watch.plain m p).Sound :=
  Watch.whole_sound h fun _ => trivial

theorem Machine.Reaches.plain {p : Program} {s : State} (hcalls : m.library.CallsOnly)
    (h : m.Reaches p s) : InStep (Watch.plain m p) s :=
  h.inStep (Watch.plain_sound hcalls) fun _ _ _ => trivial

end
end ScriptEngine
