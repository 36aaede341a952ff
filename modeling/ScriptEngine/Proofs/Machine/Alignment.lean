import ScriptEngine.Proofs.Machine.Moves
import ScriptEngine.Proofs.Machine.Runs

/-!
# Parallel stacks

The records of the calls in progress, the frames their closures were built in, the boundary frames
that lead back from callee to caller, and the work that waits for nested runs are kept in four
places. They describe the same calls in every run of every program, also of one that no compiler
made: nothing is said here about the operands, which such a program may take from its callers.

What else an activation keeps while it runs and while it waits is left open, so that further
properties of runs can be carried along the same levels.
-/

namespace ScriptEngine

/-- Where the engine stands: the current frame, the stacks that describe the calls in progress, and
the place in the program. -/
structure Stance where
  frame : Option FrameId
  captured : Array (Option FrameId)
  calls : Array CallRecord
  natives : Array Text
  ip : Int

/-- The stacks that an activation stands on, its own call included. -/
structure Base where
  captured : Array (Option FrameId)
  calls : Array CallRecord
  natives : Array Text

def Machine.stance (m : Machine) : Stance :=
  ⟨m.frame, m.captured, m.calls, m.natives, m.ip⟩

namespace Stance

/-- The snapshot was taken here. -/
structure Matches (q : Stance) (sn : Snapshot) : Prop where
  frame : sn.frame = q.frame
  captured : sn.captured = q.captured.size
  calls : sn.calls = q.calls.size
  natives : sn.natives = q.natives.size
  ip : sn.ip = q.ip

/-- The stance while a native runs. -/
def within (q : Stance) (name : Text) : Stance :=
  { q with natives := q.natives.push name }

/-- What the activation of a call made here stands on. -/
def base (q : Stance) (around : Option FrameId) (depth : Nat) (reentry : Bool) : Base :=
  ⟨q.captured.push around, q.calls.push ⟨q.ip, depth, reentry⟩, q.natives⟩

/-- The stacks are those of the activation. -/
structure On (q : Stance) (g : Base) : Prop where
  captured : q.captured = g.captured
  calls : q.calls = g.calls
  natives : q.natives = g.natives

/-- The stacks are those of the activation, and the frame is one of its own. -/
structure In (q : Stance) (s : Store) (g : Base) (b : FrameId) : Prop extends On q g where
  frame : ∃ f n, q.frame = some f ∧ s.Above f n b

/-- The stacks lie at the bottom of the other ones. -/
structure Below (q p : Stance) : Prop where
  captured : q.captured.toList <+: p.captured.toList
  calls : q.calls.toList <+: p.calls.toList
  natives : q.natives.toList <+: p.natives.toList

end Stance

/-- A level of a run: an activation with its boundary frame, or work that waits and will find the
stance again. -/
inductive Tier where
  | active (g : Base) (b : FrameId)
  | waiting (q : Stance)

def Tier.calls : Tier → Array CallRecord
  | active g _ => g.calls
  | waiting q => q.calls

/-- What a run is watched for. Besides the program, the natives, the limit of calls and the root
frame: how natives may change the store, where closures may begin, what holds of an activation with
its boundary frame in front of an instruction and of one that waits behind one, and, if only a part of
the run is watched, the level from which on that is, a bound from which on the frames above it lie, and
the positions up to which an activation on that level is watched. -/
structure Watch where
  program : Program
  ops : Array Op
  library : Library
  depth : Nat
  root : Option FrameId
  conduct : Store → Store → Prop
  entry : Int → Prop
  goes : Store → OperandStack → Int → Option FrameId → FrameId → Prop
  rests : Store → Int → Option FrameId → FrameId → Prop
  low : Nat
  floor : Option (List Pending × Tier)
  stop : Int → Prop

/-- The debug span of an instruction. -/
def Watch.span (w : Watch) (ip : Int) : Option Span :=
  (w.program.debug.lookup ip).map (·.span)

/-- The native that a closure which is entered in the stance counts as called by. -/
def Stance.caller (q : Stance) : Text :=
  q.natives.back?.getD Text.empty

/-- The frame is the boundary of a call made in the stance, on behalf of a native if it is named, of a
closure built in `around`. -/
def Store.CalledFrom (s : Store) (site : Option Span) (native : Text) (q : Stance)
    (around : Option FrameId) (b : FrameId) : Prop :=
  ∃ fr name, s.frame? b = some fr ∧ fr.kind = .boundary name site q.frame native ∧
    fr.outer = around ∧ ∀ f, q.frame = some f → f < b

section
variable (w : Watch)

/-- The levels of a run agree, given by the pending work and the innermost level. -/
inductive Aligned (s : Store) : List Pending → Tier → Prop
  | floor {pending : List Pending} {tier : Tier} (h : w.floor = some (pending, tier)) :
    Aligned s pending tier
  | root {b : FrameId} {fr : Frame} {name : Text} (h : w.floor = none) (hroot : w.root = some b)
    (hb : s.frame? b = some fr) (hkind : fr.kind = .boundary name none none Text.empty) :
    Aligned s [] (.active ⟨#[], #[], #[]⟩ b)
  | called {pending : List Pending} {g : Base} {b b' : FrameId} {q : Stance}
    {around : Option FrameId} {depth : Nat} (h : Aligned s pending (.active g b))
    (hq : q.In s g b) (hrests : w.rests s q.ip q.frame b)
    (hb : s.CalledFrom (w.span q.ip) Text.empty q around b') (hlow : w.low ≤ b')
    (hdepth : q.calls.size < w.depth) :
    Aligned s pending (.active (q.base around depth false) b')
  | nested {pending : List Pending} {b : FrameId} {q : Stance} {sn : Snapshot}
    {around : Option FrameId} {depth : Nat} (h : Aligned s pending (.waiting q))
    (hsn : q.Matches sn) (hb : s.CalledFrom (w.span q.ip) q.caller q around b) (hlow : w.low ≤ b)
    (hdepth : q.calls.size < w.depth) :
    Aligned s (.nested sn :: pending) (.active (q.base around depth true) b)
  | instruction {pending : List Pending} {g : Base} {b : FrameId} {q : Stance}
    (h : Aligned s pending (.active g b)) (hq : q.In s g b) (hrests : w.rests s q.ip q.frame b) :
    Aligned s (.instruction :: pending) (.waiting q)
  | construct {pending : List Pending} {q : Stance} {i : InstanceId}
    (h : Aligned s pending (.waiting q)) :
    Aligned s (.construct i :: pending) (.waiting (q.within Text.empty))
  | convert {pending : List Pending} {q : Stance} (h : Aligned s pending (.waiting q)) :
    Aligned s (.convert :: pending) (.waiting (q.within Text.empty))
  | native {pending : List Pending} {q : Stance} {info : NativeInfo} {sn : Snapshot}
    {resume : Except Fault Value → World → Action} (h : Aligned s pending (.waiting q))
    (hsn : q.Matches sn) (hlimit : q.natives.size < nativeLimit)
    (hresume : ∀ o w', (resume o w').Conducts w.conduct w'.store) :
    Aligned s (.native info sn resume :: pending) (.waiting (q.within info.name))

/-- The engine runs the program, and closures begin where they may. -/
structure Watch.Keeps (m : Machine) : Prop where
  program : m.program = some w.program
  ops : m.ops = w.ops
  library : m.library = w.library
  depth : m.options.maxDepth = w.depth
  root : m.root = w.root
  entries : ∀ c cl, m.world.store.closure? c = some cl → w.entry cl.entry
  low : w.low ≤ m.world.store.frames.size

/-- The states of a run whose stacks agree. -/
inductive InStep : State → Prop
  | running {m : Machine} {pending : List Pending} {g : Base} {b : FrameId} (hm : w.Keeps m)
    (hs : Aligned w m.world.store pending (.active g b)) (hq : m.stance.In m.world.store g b)
    (hgoes : w.goes m.world.store m.stack m.ip m.frame b) : InStep ⟨m, pending, .running⟩
  | invoking {m : Machine} {pending : List Pending} {callee : Value} {args : List Value}
    (hm : w.Keeps m) (hs : Aligned w m.world.store pending (.waiting m.stance)) :
    InStep ⟨m, pending, .invoking callee args⟩
  /-- An outcome for work that finds its stance again. -/
  | settled {m : Machine} {pending : List Pending} {o : Except Fault Value} (hm : w.Keeps m)
    (hs : Aligned w m.world.store pending (.waiting m.stance)) : InStep ⟨m, pending, .delivering o⟩
  /-- A nested run has returned, all but the place in the program is as before. -/
  | returned {m : Machine} {pending : List Pending} {q : Stance} {sn : Snapshot} {v : Value}
    (hm : w.Keeps m) (hs : Aligned w m.world.store pending (.waiting q)) (hsn : q.Matches sn)
    (hq : m.stance = { q with ip := m.ip }) :
    InStep ⟨m, .nested sn :: pending, .delivering (.ok v)⟩
  /-- The program is over. -/
  | ended {m : Machine} {v : Value} (hm : w.Keeps m) (hfloor : w.floor = none)
    (hq : m.stance.On ⟨#[], #[], #[]⟩) : InStep ⟨m, [], .delivering (.ok v)⟩
  /-- An activation has failed, and what it stands on is still there. -/
  | broken {m : Machine} {pending : List Pending} {g : Base} {b : FrameId} {f : Fault}
    (hm : w.Keeps m) (hs : Aligned w m.world.store pending (.active g b))
    (hq : m.stance.On g) : InStep ⟨m, pending, .delivering (.error f)⟩

/-- The transition leads to a state whose stacks agree, or ends the run. -/
def Advance.InStep : Advance → Prop
  | .next s => ScriptEngine.InStep w s
  | _ => True

/-- Where an instruction goes on that stays in its function. -/
def Exec.Next.target (ip : Int) : Exec.Next → Int
  | .skip d => Number.wrapWord (ip + 1 + d)
  | _ => ip + 1

/-- The operation calls a value. -/
def Op.Calls : Op → Prop
  | .call | .dispatch _ => True
  | _ => False

/-- The instruction of an activation with the boundary frame belongs to the part of the run that is
watched. -/
def Watch.Covers (b : FrameId) (ip : Int) : Prop :=
  w.floor ≠ none → w.low ≤ b ∨ ¬ w.stop ip

/-- What is said of activations is kept by natives, by work of the engine and by every instruction
that is watched, and it holds where a closure begins. -/
structure Watch.Sound : Prop where
  natives : w.library.Conducts w.conduct
  floored : ∀ {pending q f}, w.floor = some (pending, .waiting q) → q.frame = some f → f < w.low
  grows : ∀ {s s'}, w.conduct s s' → s.Grows s'
  rests_conduct : ∀ {s s' ip f b}, w.rests s ip f b → w.conduct s s' → w.rests s' ip f b
  rests_store : ∀ {s s' ip f b}, w.rests s ip f b → s.Extends s' →
    (∀ g name, s.Binds g name → s'.Binds g name) → w.rests s' ip f b
  enters : ∀ {s : Store} {st : OperandStack} {ip : Int} {b : FrameId} {fr : Frame},
    w.entry ip → s.frame? b = some fr → fr.isBoundary = true → w.low ≤ b → w.goes s st ip (some b) b
  resumes : ∀ {s : Store} {st : OperandStack} {ip : Int} {f : Option FrameId} {b : FrameId},
    w.rests s ip f b → w.goes s st (ip + 1) f b
  calls : ∀ {m m' : Machine} {op : Op} {b : FrameId}, w.Covers b m.ip → w.ops[m.ip.toNat]? = some op →
    op.Calls → w.goes m.world.store m.stack m.ip m.frame b → m.Works (fun _ => False) m' →
    w.rests m'.world.store m'.ip m'.frame b
  builds : ∀ {m : Machine} {d : Int} {b : FrameId}, w.Covers b m.ip → 0 ≤ m.ip →
    w.ops[m.ip.toNat]? = some (.buildFunc d) → w.goes m.world.store m.stack m.ip m.frame b →
    w.entry (m.ip + 1)
  onward : ∀ {m m' : Machine} {op : Op} {n : Exec.Next} {b : FrameId}, w.Covers b m.ip →
    w.ops[m.ip.toNat]? = some op → op ≠ .ret → w.goes m.world.store m.stack m.ip m.frame b →
    Exec.step op m = .ok n m' → n.Onward → w.goes m'.world.store m'.stack (n.target m'.ip) m'.frame b

end

section
variable {w : Watch} {s s' : Store} {m m' : Machine} {pending : List Pending} {tier : Tier} {g : Base}
  {b : FrameId} {q p : Stance}

/-- A run without a floor is watched as a whole. -/
theorem Watch.covers_of_none (hfloor : w.floor = none) (b : FrameId) (ip : Int) : w.Covers b ip :=
  fun h => absurd hfloor h

theorem InStep.keeps {s : State} (h : InStep w s) : w.Keeps s.machine := by
  cases h <;> assumption

/-!
# Work on the store
-/

theorem Store.CalledFrom.extends {site : Option Span} {native : Text} {around : Option FrameId}
    (h : s.CalledFrom site native q around b) (hs : s.Extends s') :
    s'.CalledFrom site native q around b := by
  obtain ⟨fr, name, hb, hkind, houter, hlt⟩ := h
  obtain ⟨fr', hb', hkind', houter'⟩ := hs.frames b fr hb
  exact ⟨fr', name, hb', hkind'.trans hkind, houter'.trans houter, hlt⟩

theorem Stance.In.extends (h : q.In s g b) (hs : s.Extends s') : q.In s' g b := by
  obtain ⟨f, n, hf, habove⟩ := h.frame
  exact ⟨h.toOn, f, n, hf, habove.extends hs⟩

/-- The levels of a run outlive work on the store. -/
theorem Aligned.extends (h : Aligned w s pending tier) (hs : s.Extends s')
    (hrests : ∀ ip f b, w.rests s ip f b → w.rests s' ip f b) : Aligned w s' pending tier := by
  induction h with
  | floor h => exact .floor h
  | root h hroot hb hkind =>
    obtain ⟨fr', hb', hkind', -⟩ := hs.frames _ _ hb
    exact .root h hroot hb' (hkind'.trans hkind)
  | called _ hq hr hb hlow hdepth ih =>
    exact .called ih (hq.extends hs) (hrests _ _ _ hr) (hb.extends hs) hlow hdepth
  | nested _ hsn hb hlow hdepth ih => exact .nested ih hsn (hb.extends hs) hlow hdepth
  | instruction _ hq hr ih => exact .instruction ih (hq.extends hs) (hrests _ _ _ hr)
  | construct _ ih => exact .construct ih
  | convert _ ih => exact .convert ih
  | native _ hsn hlimit hresume ih => exact .native ih hsn hlimit hresume

theorem Aligned.conduct (hw : w.Sound) (h : Aligned w s pending tier) (hs : w.conduct s s') :
    Aligned w s' pending tier :=
  h.extends (hw.grows hs).toExtends fun _ _ _ hr => hw.rests_conduct hr hs

theorem Aligned.rewrites (hw : w.Sound) {own : FrameId → Prop} (h : Aligned w s pending tier)
    (hs : s.Rewrites own s') : Aligned w s' pending tier :=
  h.extends hs.toExtends fun _ _ _ hr => hw.rests_store hr hs.toExtends hs.binds

theorem Aligned.newFrame (hw : w.Sound) (fr : Frame) (h : Aligned w s pending tier) :
    Aligned w (s.newFrame fr).2 pending tier :=
  h.extends (Store.Grows.newFrame s fr).toExtends fun _ _ _ hr =>
    hw.rests_store hr (Store.Grows.newFrame s fr).toExtends fun _ _ => .newFrame fr

theorem Watch.Keeps.grows (h : w.Keeps m) (hs : m.world.store.Grows s) : w.Keeps (m.withStore s) where
  program := h.program
  ops := h.ops
  library := h.library
  depth := h.depth
  root := h.root
  entries c cl hc := by
    obtain ⟨c₀, cl₀, hc₀, hentry⟩ := hs.entries c cl hc
    rw [← hentry]
    exact h.entries c₀ cl₀ hc₀
  low := Nat.le_trans h.low hs.size_frames

/-- What is kept shows in few parts of the engine. -/
theorem Watch.Keeps.of_same (h : w.Keeps m) (hprogram : m'.program = m.program) (hops : m'.ops = m.ops)
    (hlibrary : m'.library = m.library) (hoptions : m'.options = m.options) (hroot : m'.root = m.root)
    (hstore : m.world.store.Grows m'.world.store) : w.Keeps m' where
  program := hprogram.trans h.program
  ops := hops.trans h.ops
  library := hlibrary.trans h.library
  depth := hoptions ▸ h.depth
  root := hroot.trans h.root
  entries := (h.grows hstore).entries
  low := (h.grows hstore).low

theorem Watch.Keeps.works (h : w.Keeps m) {own : FrameId → Prop} (hm : m.Works own m') : w.Keeps m' :=
  h.of_same hm.program hm.ops hm.library hm.options hm.root hm.store.toGrows

theorem Machine.Works.stance {own : FrameId → Prop} (hm : m.Works own m') : m'.stance = m.stance := by
  unfold Machine.stance
  rw [hm.frame, hm.captured, hm.calls, hm.natives, hm.ip]

theorem Stance.In.works {own : FrameId → Prop} (hq : m.stance.In m.world.store g b)
    (hm : m.Works own m') : m'.stance.In m'.world.store g b := by
  rw [hm.stance]
  exact hq.extends hm.store.toExtends

theorem Stance.In.moved (h : q.In s g b) (ip : Int) : { q with ip := ip }.In s g b :=
  ⟨⟨h.captured, h.calls, h.natives⟩, h.frame⟩

/-!
# Snapshots
-/

theorem Machine.stance_matches (m : Machine) : m.stance.Matches m.snapshot :=
  ⟨rfl, rfl, rfl, rfl, rfl⟩

theorem Stance.Below.refl (q : Stance) : q.Below q :=
  ⟨List.prefix_refl _, List.prefix_refl _, List.prefix_refl _⟩

/-- Depths are enough to find a stance again that lies below. -/
theorem Stance.Below.restore {sn : Snapshot} (h : q.Below m.stance) (hsn : q.Matches sn) :
    (m.restore sn).stance = q := by
  show Stance.mk sn.frame (m.captured.shrink sn.captured) (m.calls.shrink sn.calls)
    (m.natives.shrink sn.natives) sn.ip = q
  rw [hsn.frame, hsn.captured, hsn.calls, hsn.natives, hsn.ip]
  have hcaptured : m.captured.shrink q.captured.size = q.captured := shrink_of_prefix h.captured
  have hcalls : m.calls.shrink q.calls.size = q.calls := shrink_of_prefix h.calls
  have hnatives : m.natives.shrink q.natives.size = q.natives := shrink_of_prefix h.natives
  rw [hcaptured, hcalls, hnatives]

/-- An activation of the part of a run that is watched has all its frames there. -/
theorem Aligned.low_le (h : Aligned w s pending (.active g b)) (hfloor : w.floor ≠ none)
    (hopen : w.floor ≠ some (pending, .active g b)) : w.low ≤ b := by
  cases h with
  | floor h => exact absurd h hopen
  | root h => exact absurd h hfloor
  | called _ _ _ _ hlow => exact hlow
  | nested _ _ _ hlow => exact hlow

/-- Where a failure in an activation goes: out of the run, to the floor, or to the work that entered
the outermost call of this run, whose stance lies below everything since. -/
theorem Aligned.unwind (h : Aligned w s pending (.active g b)) :
    pending = [] ∨ (∃ tier, w.floor = some (pending, tier)) ∨
      ∃ q sn rest, pending = .nested sn :: rest ∧ q.Matches sn ∧ Aligned w s rest (.waiting q) ∧
        q.captured.toList <+: g.captured.toList ∧ q.calls.toList <+: g.calls.toList ∧
        g.natives = q.natives := by
  generalize htier : Tier.active g b = tier at h
  induction h generalizing g b with
  | floor h => exact Or.inr (Or.inl ⟨_, h⟩)
  | root => exact Or.inl rfl
  | @called pending g₀ b₀ _ q around depth _ hq _ _ _ _ ih =>
    cases htier
    rcases @ih g₀ b₀ rfl with hout | hfloor | ⟨q', sn, rest, hpending, hsn, hwaits, hcap, hcalls, hnat⟩
    · exact Or.inl hout
    · exact Or.inr (Or.inl hfloor)
    · refine Or.inr (Or.inr ⟨q', sn, rest, hpending, hsn, hwaits, ?_, ?_, ?_⟩)
      · show q'.captured.toList <+: (q.captured.push around).toList
        rw [hq.captured, Array.toList_push]
        exact hcap.trans (List.prefix_append _ _)
      · show q'.calls.toList <+: (q.calls.push _).toList
        rw [hq.calls, Array.toList_push]
        exact hcalls.trans (List.prefix_append _ _)
      · exact hq.natives.trans hnat
  | @nested pending _ q sn around depth h hsn _ _ _ _ =>
    cases htier
    refine Or.inr (Or.inr ⟨q, sn, pending, rfl, hsn, h, ?_, ?_, rfl⟩)
    · show q.captured.toList <+: (q.captured.push around).toList
      rw [Array.toList_push]
      exact List.prefix_append _ _
    · show q.calls.toList <+: (q.calls.push _).toList
      rw [Array.toList_push]
      exact List.prefix_append _ _
  | instruction => cases htier
  | construct => cases htier
  | convert => cases htier
  | native => cases htier

end
end ScriptEngine
