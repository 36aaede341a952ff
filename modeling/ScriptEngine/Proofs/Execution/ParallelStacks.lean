import ScriptEngine.Proofs.Execution.Compiled
import ScriptEngine.Proofs.Machine.Coordination

/-!
# The stacks of the engine agree

Every program, compiled or not, keeps one record, one captured frame and one boundary frame for each
call in progress, one re-entrant record for each nested run, and no more natives than the limit. The
call history of a failure reads them off: it lists every call in progress at the place where the next
inner call was made.
-/

namespace ScriptEngine

/-- The boundary frames that a walk meets, which goes from each of them to its caller. -/
def Store.activationsFrom (s : Store) : Nat → Option FrameId → List FrameId
  | 0, _ => []
  | fuel + 1, f =>
    match s.boundary f with
    | none => []
    | some b =>
      match (s.frame? b).bind (·.caller) with
      | none => [b]
      | some caller => b :: activationsFrom s fuel (some caller)

/-- The boundary frames from the current frame to the root, the innermost first. -/
def Machine.activations (m : Machine) : List FrameId :=
  m.world.store.activationsFrom (m.world.store.frames.size + 1) m.frame

/-- What a call history says about one activation: its name at a place, and the native that made the
call, if one did. -/
def Store.history (s : Store) (b : FrameId) (site : Option Span) : List TraceFrame :=
  match s.frame? b with
  | none => []
  | some fr =>
    ⟨Key.display fr.name, site⟩ ::
      if fr.native.isEmpty then [] else [⟨Key.display fr.native, none⟩]

def Pending.isNested : Pending → Bool
  | .nested _ => true
  | _ => false

/-- The stacks of the engine agree with each other and with the pending work. -/
structure Machine.Parallel (m : Machine) (pending : List Pending) : Prop where
  captured : m.captured.size = m.calls.size
  limited : m.calls.size ≤ m.options.maxDepth
  walked : m.activations.length = m.calls.size + 1
  rooted : m.activations.getLast? = m.root
  called : ∀ (i : Nat) record, m.calls[i]? = some record →
    ∃ b fr, m.activations.reverse[i + 1]? = some b ∧ m.world.store.frame? b = some fr ∧
      fr.isBoundary = true ∧ m.captured[i]? = some fr.outer ∧ fr.site = m.spanAt record.callIp
  reentrant : (m.calls.filter (·.reentry)).size = (pending.filter Pending.isNested).length
  named : (m.natives.filter fun name => !name.isEmpty).size ≤ nativeLimit
  traced : ∀ ip, (m.traceAt ip).toList =
    (List.zipWith m.world.store.history m.activations
      (m.spanAt ip :: m.calls.toList.reverse.map fun record => m.spanAt record.callIp)).flatten

/-!
# Chains of boundary frames
-/

section
variable {s : Store} {span : Int → Option Span} {root b : FrameId} {records : List CallRecord}
  {arounds : List (Option FrameId)} {bs : List FrameId}

/-- Boundary frames, each with the record of its call and the frame its closure was built in, the
innermost first; the last one is the root. -/
inductive Chain (s : Store) (span : Int → Option Span) (root : FrameId) :
    FrameId → List CallRecord → List (Option FrameId) → List FrameId → Prop
  | root {fr : Frame} {name : Text} (hb : s.frame? root = some fr)
    (hkind : fr.kind = .boundary name none none Text.empty) : Chain s span root root [] [] [root]
  | call {b b' f : FrameId} {n : Nat} {fr : Frame} {name native : Text} {record : CallRecord}
    {around : Option FrameId} {records : List CallRecord} {arounds : List (Option FrameId)}
    {bs : List FrameId} (hb : s.frame? b = some fr)
    (hkind : fr.kind = .boundary name (span record.callIp) (some f) native)
    (houter : fr.outer = around) (habove : s.Above f n b') (hlt : f < b)
    (h : Chain s span root b' records arounds bs) :
    Chain s span root b (record :: records) (around :: arounds) (b :: bs)

namespace Chain

theorem lengths (h : Chain s span root b records arounds bs) :
    arounds.length = records.length ∧ bs.length = records.length + 1 := by
  induction h with
  | root => exact ⟨rfl, rfl⟩
  | call _ _ _ _ _ _ ih => exact ⟨congrArg (· + 1) ih.1, congrArg (· + 1) ih.2⟩

theorem getLast? (h : Chain s span root b records arounds bs) : bs.getLast? = some root := by
  induction h with
  | root => rfl
  | call _ _ _ _ _ h ih =>
    cases h with
    | root => rfl
    | call => exact ih

/-- Every frame of the chain comes after the one it leads back to. -/
theorem length_le (h : Chain s span root b records arounds bs) : bs.length ≤ b + 1 := by
  induction h with
  | root => exact Nat.le_add_left 1 _
  | call _ _ _ habove hlt _ ih =>
    exact Nat.succ_le_succ (Nat.le_trans ih (Nat.lt_of_le_of_lt habove.le hlt))

theorem walk (h : Chain s span root b records arounds bs) :
    ∀ {f n fuel}, s.Above f n b → bs.length ≤ fuel → s.activationsFrom fuel (some f) = bs := by
  induction h with
  | root hb hkind =>
    intro f n fuel habove hfuel
    obtain ⟨fuel, rfl⟩ := Nat.exists_eq_add_one_of_ne_zero (Nat.ne_of_gt hfuel)
    unfold Store.activationsFrom
    simp only [habove.boundary, hb, Option.bind_some, Frame.caller, hkind]
  | call hb hkind _ habove' _ _ ih =>
    intro f n fuel habove hfuel
    rw [List.length_cons] at hfuel
    obtain ⟨fuel, rfl⟩ := Nat.exists_eq_add_one_of_ne_zero (Nat.ne_of_gt (Nat.zero_lt_of_lt hfuel))
    unfold Store.activationsFrom
    simp only [habove.boundary, hb, Option.bind_some, Frame.caller, hkind]
    rw [ih habove' (Nat.le_of_succ_le_succ hfuel)]

theorem get (h : Chain s span root b records arounds bs) : ∀ {j : Nat} {record},
    records[j]? = some record → ∃ b fr, bs[j]? = some b ∧ s.frame? b = some fr ∧
      fr.isBoundary = true ∧ arounds[j]? = some fr.outer ∧ fr.site = span record.callIp := by
  induction h with
  | root =>
    intro j record hj
    cases hj
  | @call b _ _ _ fr _ _ record _ _ _ _ hb hkind houter _ _ _ ih =>
    intro j record' hj
    cases j with
    | zero =>
      cases hj
      refine ⟨b, fr, rfl, hb, ?_, ?_, ?_⟩
      · unfold Frame.isBoundary
        rw [hkind]
      · rw [houter]
        rfl
      · unfold Frame.site
        rw [hkind]
    | succ j => exact ih hj

/-- The history of calls follows the chain. -/
theorem trace (h : Chain s span root b records arounds bs) : ∀ {fuel site acc}, bs.length ≤ fuel →
    (Machine.traceFrom s fuel (some b) site acc).toList = acc.toList ++
      (List.zipWith s.history bs (site :: records.map fun record => span record.callIp)).flatten := by
  have hentry : ∀ {b fr} (site : Option Span) (acc : Trace), s.frame? b = some fr →
      (if fr.native.isEmpty then acc.push ⟨Key.display fr.name, site⟩
        else (acc.push ⟨Key.display fr.name, site⟩).push ⟨Key.display fr.native, none⟩).toList =
      acc.toList ++ s.history b site := by
    intro b fr site acc hb
    unfold Store.history
    simp only [hb]
    cases fr.native.isEmpty <;> simp
  induction h with
  | root hb hkind =>
    intro fuel site acc hfuel
    obtain ⟨fuel, rfl⟩ := Nat.exists_eq_add_one_of_ne_zero (Nat.ne_of_gt hfuel)
    unfold Machine.traceFrom
    simp only [hb, show Frame.caller _ = none by unfold Frame.caller; rw [hkind]]
    rw [hentry site acc hb]
    simp
  | @call b b' f n fr name native record around records arounds bs hb hkind _ habove _ _ ih =>
    intro fuel site acc hfuel
    rw [List.length_cons] at hfuel
    obtain ⟨fuel, rfl⟩ := Nat.exists_eq_add_one_of_ne_zero (Nat.ne_of_gt (Nat.zero_lt_of_lt hfuel))
    have hcaller : fr.caller = some f := by
      unfold Frame.caller
      rw [hkind]
    have hsite : fr.site = span record.callIp := by
      unfold Frame.site
      rw [hkind]
    unfold Machine.traceFrom
    simp only [hb, hcaller, hsite, habove.boundary]
    rw [ih (Nat.le_of_succ_le_succ hfuel), hentry site acc hb]
    simp only [List.map_cons, List.zipWith_cons_cons, List.flatten_cons, List.append_assoc]

end Chain
end

/-!
# Chains of runs
-/

section
variable {w : Watch} {s : Store} {pending : List Pending} {root : FrameId} {q : Stance} {m : Machine}

/-- The stacks belong to a chain of boundary frames that begins at `b`. -/
def Store.Chained (s : Store) (w : Watch) (root b : FrameId) (calls : Array CallRecord)
    (captured : Array (Option FrameId)) : Prop :=
  ∃ bs, Chain s w.span root b calls.toList.reverse captured.toList.reverse bs

/-- The level stands at the end of a chain. -/
def Tier.Chained (s : Store) (w : Watch) (root : FrameId) : Tier → Prop
  | active g b => s.Chained w root b g.calls g.captured
  | waiting q => ∃ f n b, q.frame = some f ∧ s.Above f n b ∧ s.Chained w root b q.calls q.captured

theorem Stance.In.chained {g : Base} {b : FrameId} (hq : q.In s g b)
    (h : Tier.Chained s w root (.active g b)) : Tier.Chained s w root (.waiting q) := by
  obtain ⟨f, n, hf, habove⟩ := hq.frame
  refine ⟨f, n, b, hf, habove, ?_⟩
  rw [hq.calls, hq.captured]
  exact h

theorem Tier.Chained.call {native : Text} {b : FrameId} {around : Option FrameId} {depth : Nat}
    {reentry : Bool} (h : Tier.Chained s w root (.waiting q))
    (hb : s.CalledFrom (w.span q.ip) native q around b) :
    Tier.Chained s w root (.active (q.base around depth reentry) b) := by
  obtain ⟨f, n, b', hf, habove, bs, hchain⟩ := h
  obtain ⟨fr, name, hfr, hkind, houter, hlt⟩ := hb
  rw [hf] at hkind
  refine ⟨b :: bs, ?_⟩
  show Chain s w.span root b (q.calls.push _).toList.reverse (q.captured.push around).toList.reverse _
  rw [Array.toList_push, Array.toList_push, List.reverse_append, List.reverse_append]
  exact .call hfr hkind houter habove (hlt f hf) hchain

theorem Aligned.chained {tier : Tier} (hfloor : w.floor = none) (hroot : w.root = some root)
    (h : Aligned w s pending tier) : tier.Chained s w root := by
  induction h with
  | floor h =>
    rw [hfloor] at h
    cases h
  | root _ hroot' hb hkind =>
    rw [hroot] at hroot'
    cases hroot'
    exact ⟨[root], .root hb hkind⟩
  | called _ hq _ hb _ _ ih => exact (hq.chained ih).call hb
  | nested _ _ hb _ _ ih => exact ih.call hb
  | instruction _ hq _ ih => exact hq.chained ih
  | construct _ ih => exact ih
  | convert _ ih => exact ih
  | native _ _ _ _ ih => exact ih

/-!
# Counting
-/

/-- How many calls, re-entrant records and named natives the level has, given its pending work. -/
structure Tier.Counted (w : Watch) (pending : List Pending) (calls : Array CallRecord)
    (natives : Array Text) : Prop where
  limited : calls.size ≤ w.depth
  reentrant : (calls.filter (·.reentry)).size = (pending.filter Pending.isNested).length
  named : (natives.filter fun name => !name.isEmpty).size ≤ nativeLimit

def Tier.natives : Tier → Array Text
  | active g _ => g.natives
  | waiting q => q.natives

theorem Aligned.counted {tier : Tier} (hfloor : w.floor = none) (h : Aligned w s pending tier) :
    Tier.Counted w pending tier.calls tier.natives := by
  have hpush : ∀ {q : Stance} {around : Option FrameId} {depth : Nat} {reentry : Bool},
      ((q.base around depth reentry).calls.filter (·.reentry)).size =
        (q.calls.filter (·.reentry)).size + if reentry then 1 else 0 := by
    intro q around depth reentry
    show ((q.calls.push _).filter (·.reentry)).size = _
    rw [Array.filter_push]
    cases reentry
    · rfl
    · exact Array.size_push _
  induction h with
  | floor h =>
    rw [hfloor] at h
    cases h
  | root => exact ⟨Nat.zero_le _, rfl, Nat.zero_le _⟩
  | @called pending g b b' q around depth _ hq _ _ _ hdepth ih =>
    refine ⟨?_, ?_, ?_⟩
    · show (q.calls.push _).size ≤ w.depth
      rw [Array.size_push]
      exact hdepth
    · show ((q.base around depth false).calls.filter (·.reentry)).size = _
      rw [hpush, hq.calls]
      exact ih.reentrant
    · show (q.natives.filter _).size ≤ nativeLimit
      rw [hq.natives]
      exact ih.named
  | @nested pending b q sn around depth _ _ _ _ hdepth ih =>
    refine ⟨?_, ?_, ih.named⟩
    · show (q.calls.push _).size ≤ w.depth
      rw [Array.size_push]
      exact hdepth
    · show ((q.base around depth true).calls.filter (·.reentry)).size = _
      rw [hpush]
      exact congrArg (· + 1) ih.reentrant
  | @instruction pending g b q _ hq _ ih =>
    refine ⟨?_, ?_, ?_⟩
    · show q.calls.size ≤ w.depth
      rw [hq.calls]
      exact ih.limited
    · show (q.calls.filter _).size = _
      rw [hq.calls]
      exact ih.reentrant
    · show (q.natives.filter _).size ≤ nativeLimit
      rw [hq.natives]
      exact ih.named
  | @construct pending q i _ ih =>
    refine ⟨ih.limited, ih.reentrant, ?_⟩
    show ((q.natives.push Text.empty).filter _).size ≤ nativeLimit
    rw [Array.filter_push]
    exact ih.named
  | @convert pending q _ ih =>
    refine ⟨ih.limited, ih.reentrant, ?_⟩
    show ((q.natives.push Text.empty).filter _).size ≤ nativeLimit
    rw [Array.filter_push]
    exact ih.named
  | @native pending q info sn resume _ _ hlimit _ ih =>
    refine ⟨ih.limited, ih.reentrant, ?_⟩
    show ((q.natives.push info.name).filter _).size ≤ nativeLimit
    refine Nat.le_trans Array.size_filter_le ?_
    rw [Array.size_push]
    exact hlimit

/-- The walk from a frame whose activation ends a chain takes the chain, and the call history that is
read off there is that of its calls. -/
theorem Chain.activations {span : Int → Option Span} {f b : FrameId} {n : Nat}
    {records : List CallRecord} {arounds : List (Option FrameId)} {bs : List FrameId}
    (h : Chain m.world.store span root b records arounds bs) (hf : m.frame = some f)
    (habove : m.world.store.Above f n b) :
    m.activations = bs ∧ ∀ ip, (m.traceAt ip).toList =
      (List.zipWith m.world.store.history bs
        (m.spanAt ip :: records.map fun record => span record.callIp)).flatten := by
  have hlt : b < m.world.store.frames.size := by
    obtain ⟨fr, hfr, -⟩ := habove.boundaryFrame
    exact (Array.getElem?_eq_some_iff.mp hfr).1
  have hfuel : bs.length ≤ m.world.store.frames.size + 1 :=
    Nat.le_trans h.length_le (Nat.le_succ_of_le hlt)
  refine ⟨?_, fun ip => ?_⟩
  · unfold Machine.activations
    rw [hf]
    exact h.walk habove hfuel
  · unfold Machine.traceAt
    dsimp only
    rw [hf, habove.boundary, h.trace hfuel]
    rfl

theorem Watch.Keeps.spanAt (hm : w.Keeps m) : w.span = m.spanAt := by
  funext ip
  unfold Watch.span Machine.spanAt Machine.entryAt
  rw [hm.program]

/-- A machine at the end of a chain whose calls are counted has parallel stacks. -/
theorem Machine.parallel_of_chained (hm : w.Keeps m) (hroot : w.root = some root)
    (hchained : Tier.Chained m.world.store w root (.waiting m.stance))
    (hcounted : Tier.Counted w pending m.calls m.natives) : m.Parallel pending := by
  obtain ⟨f, n, b, hf, habove, bs, hchain⟩ := hchained
  have hf : m.frame = some f := hf
  rw [hm.spanAt] at hchain
  have hchain : Chain m.world.store m.spanAt root b m.calls.toList.reverse
    m.captured.toList.reverse bs := hchain
  obtain ⟨hactivations, htrace⟩ := hchain.activations hf habove
  have hcaptured : m.captured.size = m.calls.size := by simpa using hchain.lengths.1
  have hlength : bs.length = m.calls.size + 1 := by simpa using hchain.lengths.2
  refine ⟨hcaptured, ?_, ?_, ?_, ?_, hcounted.reentrant, hcounted.named, ?_⟩
  · rw [hm.depth]
    exact hcounted.limited
  · rw [hactivations, hlength]
  · rw [hactivations, hchain.getLast?, hm.root, hroot]
  · intro i record hrecord
    have hi : i < m.calls.size := (Array.getElem?_eq_some_iff.mp hrecord).1
    have hreverse : m.calls.toList.reverse[m.calls.size - 1 - i]? = some record := by
      rw [List.getElem?_reverse (by rw [Array.length_toList]; omega), Array.length_toList,
        show m.calls.size - 1 - (m.calls.size - 1 - i) = i by omega, Array.getElem?_toList]
      exact hrecord
    obtain ⟨b', fr, hb', hfr, hkind, haround, hsite⟩ := hchain.get hreverse
    refine ⟨b', fr, ?_, hfr, hkind, ?_, hsite⟩
    · rw [hactivations, List.getElem?_reverse (by omega), hlength,
        show m.calls.size + 1 - 1 - (i + 1) = m.calls.size - 1 - i by omega]
      exact hb'
    · rw [List.getElem?_reverse (by rw [Array.length_toList]; omega), Array.length_toList, hcaptured,
        show m.calls.size - 1 - (m.calls.size - 1 - i) = i by omega, Array.getElem?_toList] at haround
      exact haround
  · intro ip
    rw [hactivations]
    exact htrace ip

end

/-!
# Executions
-/

section
variable {m : Machine} {p : Program} {s : State}

/-- An instruction that fails has worked on values and bindings only. -/
theorem Exec.step_fault_works {op : Op} {f : Fault} {m' : Machine}
    (h : Exec.step op m = .error (.fault f) m') : ∃ own, m.Works own m' := by
  have hcalling : ∀ {r}, Exec.Calling m r → r = .error (.fault f) m' → ∃ own, m.Works own m' := by
    rintro _ (hworks | _ | _) hr
    · cases hr
      exact ⟨_, hworks⟩
    · cases hr
    · cases hr
  have hlocal : op.Local → ∃ own, m.Works own m' := by
    intro hop
    have hstep := Exec.works_step hop m
    unfold Exec.Works at hstep
    rw [h] at hstep
    exact ⟨_, hstep⟩
  cases op with
  | call => exact hcalling (Exec.calling_call m) h
  | dispatch op => exact hcalling (Exec.calling_dispatch op m) h
  | ret =>
    have hstep := Exec.returning_ret m
    rw [h] at hstep
    cases hstep
  | scopeEnter => cases h
  | scopeExit =>
    have hstep := Exec.closing_scopeExit m
    rw [h] at hstep
    cases hstep
  | buildFunc d =>
    have hstep := Exec.building_buildFunc d m
    rw [h] at hstep
    cases hstep with
    | stopped hworks => exact ⟨_, hworks⟩
  | _ => exact hlocal trivial

/-- An activation at an instruction has parallel stacks. -/
theorem Watch.Keeps.parallel {w : Watch} {pending : List Pending} {root b : FrameId} {g : Base}
    (hm : w.Keeps m) (hfloor : w.floor = none) (hroot : w.root = some root)
    (hs : Aligned w m.world.store pending (.active g b)) (hq : m.stance.In m.world.store g b) :
    m.Parallel pending := by
  refine Machine.parallel_of_chained hm hroot (hq.chained (hs.chained hfloor hroot)) ?_
  have hcounted := hs.counted hfloor
  rw [← show _ = Tier.calls (.active _ _) from hq.calls,
    ← show _ = Tier.natives (.active _ _) from hq.natives] at hcounted
  exact hcounted

/-- The engine is at work in the innermost activation of the run. -/
structure Watch.Active (w : Watch) (pending : List Pending) (m : Machine) : Prop where
  keeps : w.Keeps m
  level : ∃ g b, Aligned w m.world.store pending (.active g b) ∧ m.stance.In m.world.store g b

theorem Watch.Active.parallel {w : Watch} {pending : List Pending} {root : FrameId}
    (h : w.Active pending m) (hfloor : w.floor = none) (hroot : w.root = some root) :
    m.Parallel pending := by
  obtain ⟨g, b, hs, hq⟩ := h.level
  exact h.keeps.parallel hfloor hroot hs hq

/-- So it is after an instruction that fails. -/
theorem Watch.Active.fault {w : Watch} (hw : w.Sound) {pending pending' : List Pending} {m' : Machine}
    {f : Fault} (h : w.Active pending m)
    (hfault : State.execute m pending = .next ⟨m', pending', .delivering (.error f)⟩) :
    pending' = pending ∧ w.Active pending m' := by
  obtain ⟨hm, g, b, hs, hq⟩ := h
  rcases State.execute_cases m pending with ⟨_, _, h⟩ | ⟨h, -⟩ | ⟨_, h⟩ | ⟨op, j, -, -, h⟩
  · rw [h] at hfault
    cases hfault
  · rw [h] at hfault
    cases hfault
  · rw [h] at hfault
    cases hfault
    exact ⟨rfl, hm, g, b, hs, hq⟩
  · rw [h] at hfault
    cases hstep : Exec.step op (m.withJournal j) with
    | ok n m₁ =>
      rw [hstep] at hfault
      cases n <;> cases hfault
    | error e m₁ =>
      rw [hstep] at hfault
      cases e with
      | crash message => cases hfault
      | fault f₀ =>
        cases hfault
        obtain ⟨own, hworks⟩ := Exec.step_fault_works hstep
        have hm₀ : w.Keeps (m.withJournal j) := hm.of_same rfl rfl rfl rfl rfl (.refl _)
        exact ⟨rfl, hm₀.works hworks, g, b, hs.rewrites hw hworks.store,
          Stance.In.works (show (m.withJournal j).stance.In _ g b from hq) hworks⟩

/-- In every state that comes up while a program is executed, raw or compiled, in front of an
instruction, of a call that is to be started or of the outcome of one that the work on top waits
for, the stacks of the engine agree; and so they do where an instruction has failed. -/
theorem parallel_stacks (hcalls : m.library.CallsOnly) (hreaches : m.Reaches p s)
    (hmode : ∀ o, s.mode = .delivering o →
      ∃ work rest, s.pending = work :: rest ∧ work.isNested = false) :
    s.machine.Parallel s.pending ∧
      ∀ m' f, s.mode = .running → s.advance = .next ⟨m', s.pending, .delivering (.error f)⟩ →
        m'.Parallel s.pending := by
  have hwhole : (Watch.whole m p fun _ => True).Sound :=
    Watch.whole_sound hcalls fun _ => trivial
  cases hreaches.inStep hwhole fun _ _ _ => trivial with
  | @running m₀ pending g b hm hs hq _ =>
    have hactive : (Watch.whole m p fun _ => True).Active pending m₀ := ⟨hm, g, b, hs, hq⟩
    refine ⟨hactive.parallel rfl rfl, ?_⟩
    intro m' f _ hadvance
    exact (hactive.fault hwhole hadvance).2.parallel rfl rfl
  | invoking hm hs =>
    exact ⟨Machine.parallel_of_chained hm rfl (hs.chained rfl rfl) (hs.counted rfl),
      fun _ _ h => by cases h⟩
  | settled hm hs =>
    exact ⟨Machine.parallel_of_chained hm rfl (hs.chained rfl rfl) (hs.counted rfl),
      fun _ _ h => by cases h⟩
  | returned =>
    obtain ⟨work, rest, hpending, hwork⟩ := hmode _ rfl
    cases hpending
    cases hwork
  | ended =>
    obtain ⟨work, rest, hpending, -⟩ := hmode _ rfl
    cases hpending
  | broken _ hs _ =>
    obtain ⟨work, rest, rfl, hwork⟩ := hmode _ rfl
    rcases hs.unwind with hout | ⟨tier, hfloor⟩ | ⟨_, _, _, hnested, -⟩
    · cases hout
    · cases hfloor
    · cases hnested
      cases hwork

end

/-- Whether the engine is at an instruction of a nested run. -/
def State.runsNested (s : State) : Bool :=
  match s.pending, s.mode with
  | .nested _ :: _, .running => true
  | _, _ => false

theorem parallel_stacks_relayedLoop :
    ∃ c s, (Compiler.compile .absent false relayedLoop).result = .ok c ∧
      relayEngine.Reaches c.program s ∧ s.runsNested = true ∧ s.machine.Parallel s.pending := by
  obtain ⟨c, hcompiled, hsteps⟩ :
      ∃ c, (Compiler.compile .absent false relayedLoop).result = .ok c ∧
        ((relayEngine.start c.program).steps 7).any State.runsNested = true :=
    ⟨_, rfl, by decide +kernel⟩
  obtain ⟨s, hs, hruns⟩ := (Option.any_eq_true _ _).mp hsteps
  have hreaches : relayEngine.Reaches c.program s := .of_steps hs
  refine ⟨c, s, hcompiled, hreaches, hruns, ?_⟩
  refine (parallel_stacks Library.relaying_callsOnly hreaches ?_).1
  intro o ho
  unfold State.runsNested at hruns
  rw [ho] at hruns
  split at hruns
  · rename_i hrunning
    cases hrunning
  · cases hruns

end ScriptEngine
