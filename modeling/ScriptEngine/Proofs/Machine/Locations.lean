import ScriptEngine.Proofs.Compiler.Coverage
import ScriptEngine.Proofs.Machine.Coordination
import ScriptEngine.Proofs.Machine.Raising
import ScriptEngine.Proofs.Native.Conduct

/-!
# Where faults are located

Wherever a run calls something, and wherever it fails, the current instruction lies inside a node of
the program. So each boundary frame has a call site, each snapshot leads back to such an instruction,
and a fault gets a span when it is located and a trace all of whose entries have one, natives apart.
-/

namespace ScriptEngine

/-- The entry has a span, or names one of the given natives. -/
def TraceFrame.Placed (named : Text → Prop) (t : TraceFrame) : Prop :=
  t.span.isSome = true ∨ ∃ name, named name ∧ t.name = Key.display name

/-- What was located has spans all over. -/
def Fault.Placed (named : Text → Prop) : Fault → Prop
  | .located _ _ problems trace =>
    (∀ p ∈ problems, p.span.isSome = true) ∧ ∀ t ∈ trace, t.Placed named
  | _ => True

theorem Fault.Raised.placed {named : Text → Prop} {f : Fault} (h : f.Raised) : f.Placed named := by
  cases f with
  | raised | foreign => exact trivial
  | located => exact absurd h id

/-!
# Frames on the way out
-/

namespace Store

/-- Every frame from here outward that a trace lists has its call site, and the native that made the
call, if any, is one of those given. -/
inductive Traced (named : Text → Prop) (s : Store) : Option FrameId → Prop
  | none : Traced named s none
  | block {f : FrameId} {fr : Frame} (hf : s.frame? f = some fr) (hkind : fr.kind = .block)
    (h : Traced named s fr.outer) : Traced named s (some f)
  | boundary {f : FrameId} {fr : Frame} {name native : Text} {site : Option Span}
    {caller : Option FrameId} (hf : s.frame? f = some fr)
    (hkind : fr.kind = .boundary name site caller native) (hsite : caller ≠ none → site.isSome = true)
    (hnative : native.isEmpty = true ∨ named native) (h : Traced named s caller) :
    Traced named s (some f)

variable {named : Text → Prop} {s s' : Store} {f : Option FrameId}

theorem Traced.extends (h : s.Traced named f) (hs : s.Extends s') : s'.Traced named f := by
  induction h with
  | none => exact .none
  | block hf hkind _ ih =>
    obtain ⟨fr', hf', hkind', houter⟩ := hs.frames _ _ hf
    exact .block hf' (hkind'.trans hkind) (houter ▸ ih)
  | boundary hf hkind hsite hnative _ ih =>
    obtain ⟨fr', hf', hkind', -⟩ := hs.frames _ _ hf
    exact .boundary hf' (hkind'.trans hkind) hsite hnative ih

/-- The frames around the nearest boundary are among those outward. -/
theorem Traced.boundaryOf (h : s.Traced named f) : s.Traced named (s.boundary f) := by
  have hwalk : ∀ (fuel : Nat) (f : Option FrameId), s.Traced named f →
      s.Traced named (s.boundaryFrom fuel f) := by
    intro fuel
    induction fuel with
    | zero => exact fun _ _ => .none
    | succ fuel ih =>
      intro f h
      cases h with
      | none => exact .none
      | block hf hkind h =>
        rw [boundaryFrom, hf]
        simp only [Frame.isBoundary, hkind, Bool.false_eq_true, if_false]
        exact ih _ h
      | boundary hf hkind hsite hnative h =>
        rw [boundaryFrom, hf]
        simp only [Frame.isBoundary, hkind, if_true]
        exact .boundary hf hkind hsite hnative h
  exact hwalk _ f h

/-- A frame that returns to another does so from where that other frame was called. -/
theorem Traced.caller {b : FrameId} {fr : Frame} (h : s.Traced named (some b))
    (hb : s.frame? b = some fr) : s.Traced named fr.caller := by
  cases h with
  | block hf hkind =>
    rw [hb] at hf
    cases hf
    unfold Frame.caller
    rw [hkind]
    exact .none
  | boundary hf hkind _ _ h =>
    rw [hb] at hf
    cases hf
    unfold Frame.caller
    rw [hkind]
    exact h

/-- A list of calls has a span at every entry, natives apart. -/
theorem Traced.traceFrom {site : Option Span} {acc : Trace} (h : s.Traced named f)
    (hsite : site.isSome = true) (hacc : ∀ t ∈ acc, t.Placed named) (fuel : Nat) :
    ∀ t ∈ Machine.traceFrom s fuel f site acc, t.Placed named := by
  induction fuel generalizing f site acc with
  | zero => exact hacc
  | succ fuel ih =>
    cases h with
    | none => exact hacc
    | @block b fr hb hkind h =>
      have hpushed : ∀ t ∈ acc.push ⟨Key.display fr.name, site⟩, t.Placed named := by
        intro t ht
        rcases Array.mem_push.mp ht with ht | rfl
        · exact hacc t ht
        · exact Or.inl hsite
      rw [Machine.traceFrom, hb]
      simp only [Frame.native, Frame.caller, hkind]
      exact hpushed
    | @boundary b fr name native site' caller hb hkind hsite' hnative h =>
      have hpushed : ∀ t ∈ acc.push ⟨Key.display fr.name, site⟩, t.Placed named := by
        intro t ht
        rcases Array.mem_push.mp ht with ht | rfl
        · exact hacc t ht
        · exact Or.inl hsite
      have hnamed : ∀ t ∈ (if native.isEmpty then acc.push ⟨Key.display fr.name, site⟩
          else (acc.push ⟨Key.display fr.name, site⟩).push ⟨Key.display native, Option.none⟩),
          t.Placed named := by
        split
        · exact hpushed
        · rename_i hempty
          intro t ht
          rcases Array.mem_push.mp ht with ht | rfl
          · exact hpushed t ht
          · exact Or.inr ⟨native, hnative.resolve_left hempty, rfl⟩
      rw [Machine.traceFrom, hb]
      simp only [Frame.native, Frame.caller, Frame.site, hkind]
      cases caller with
      | none => exact hnamed
      | some around => exact ih h.boundaryOf (hsite' (fun h => by cases h)) hnamed

end Store

/-!
# Engines
-/

/-- What is known of a run from its beginning to its end: the program and its operations, the
library, and the names of natives that it may call. -/
structure Chart where
  program : Program
  ops : Array Op
  library : Library
  named : Text → Prop

/-- Every instruction that may fail or call has a span, and natives are honest. -/
structure Chart.Valid (c : Chart) : Prop where
  covers : c.program.Covers c.ops
  honest : c.library.Honest

/-- A snapshot leads back to an instruction with a span. -/
structure Snapshot.Placed (c : Chart) (s : Store) (sn : Snapshot) : Prop where
  ip : c.program.Spans sn.ip
  frame : s.Traced c.named sn.frame

theorem Snapshot.Placed.extends {c : Chart} {s s' : Store} {sn : Snapshot} (h : sn.Placed c s)
    (hs : s.Extends s') : sn.Placed c s' :=
  ⟨h.ip, h.frame.extends hs⟩

/-- The engine runs the program with the store, which it has lent to a native at times. -/
structure Machine.Placed (c : Chart) (s : Store) (m : Machine) : Prop where
  program : m.program = some c.program
  ops : m.ops = c.ops
  library : m.library = c.library
  frame : s.Traced c.named m.frame
  natives : ∀ name ∈ m.natives, name.isEmpty = true ∨ c.named name

section
variable {c : Chart} {s s' : Store} {m m' : Machine} {pending : List Pending}

namespace Machine.Placed

/-- Operands, journal and world do not matter. -/
theorem of_same (h : m.Placed c s) (hs : s.Extends s') (hprogram : m'.program = m.program)
    (hops : m'.ops = m.ops) (hlibrary : m'.library = m.library) (hframe : m'.frame = m.frame)
    (hnatives : m'.natives = m.natives) : m'.Placed c s' := by
  refine ⟨hprogram.trans h.program, hops.trans h.ops, hlibrary.trans h.library, ?_, ?_⟩
  · rw [hframe]
    exact h.frame.extends hs
  · rw [hnatives]
    exact h.natives

theorem works {own : FrameId → Prop} (h : m.Placed c m.world.store) (hworks : m.Works own m') :
    m'.Placed c m'.world.store :=
  h.of_same hworks.store.toExtends hworks.program hworks.ops hworks.library hworks.frame
    hworks.natives

theorem framed {frame : Option FrameId} (h : m.Placed c s) (hframe : s.Traced c.named frame) :
    { m with frame := frame }.Placed c s :=
  ⟨h.program, h.ops, h.library, hframe, h.natives⟩

theorem outOfNative (h : m.Placed c s) : m.outOfNative.Placed c s := by
  refine ⟨h.program, h.ops, h.library, h.frame, ?_⟩
  intro name hname
  have hname : name ∈ m.natives.pop := hname
  rw [← Array.extract_eq_pop rfl] at hname
  obtain ⟨k, hk, rfl⟩ := Array.mem_extract_iff_getElem.mp hname
  exact h.natives _ (Array.getElem_mem _)

theorem within {name : Text} (h : m.Placed c s) (hname : name.isEmpty = true ∨ c.named name) :
    { m with natives := m.natives.push name }.Placed c s := by
  refine ⟨h.program, h.ops, h.library, h.frame, ?_⟩
  intro name' hmem
  rcases Array.mem_push.mp hmem with hmem | rfl
  · exact h.natives name' hmem
  · exact hname

theorem restore {sn : Snapshot} (h : m.Placed c s) (hsn : sn.Placed c s) :
    (m.restore sn).Placed c s := by
  refine ⟨h.program, h.ops, h.library, hsn.frame, ?_⟩
  intro name hname
  have hname : name ∈ m.natives.shrink sn.natives := hname
  rw [Array.shrink_eq_take] at hname
  obtain ⟨k, hk, rfl⟩ := Array.mem_extract_iff_getElem.mp hname
  exact h.natives _ (Array.getElem_mem _)

theorem snapshot (h : m.Placed c s) (hip : c.program.Spans m.ip) : m.snapshot.Placed c s :=
  ⟨hip, h.frame⟩

/-- At an instruction with a span, problems have it. -/
theorem problemAt (h : m.Placed c s) (hip : c.program.Spans m.ip) (f : Failure) (message : Text) :
    (m.problemAt m.ip f message).span.isSome = true := by
  obtain ⟨e, he⟩ := Option.isSome_iff_exists.mp hip
  unfold Machine.problemAt Machine.entryAt
  rw [h.program]
  simp only [he]
  rfl

theorem spanAt (h : m.Placed c s) (hip : c.program.Spans m.ip) :
    (m.spanAt m.ip).isSome = true := by
  unfold Machine.spanAt Machine.entryAt
  rw [h.program, Option.isSome_map]
  exact hip

theorem traceAt (h : m.Placed c m.world.store) (hip : c.program.Spans m.ip) :
    ∀ t ∈ m.traceAt m.ip, t.Placed c.named :=
  h.frame.boundaryOf.traceFrom (h.spanAt hip) (fun t ht => absurd ht (Array.not_mem_empty t)) _

/-- At an instruction with a span, faults are located with spans. -/
theorem locate {f : Fault} (h : m.Placed c m.world.store) (hip : c.program.Spans m.ip)
    (hf : f.Placed c.named) : (m.locate f).Placed c.named := by
  have hlocated : ∀ (failure : Failure) (message : Text),
      (Fault.located failure message #[m.problemAt m.ip failure message] (m.traceAt m.ip)).Placed
        c.named := by
    intro failure message
    refine ⟨fun p hp => ?_, h.traceAt hip⟩
    rw [List.mem_singleton.mp (List.mem_toArray.mp hp)]
    exact h.problemAt hip failure message
  cases f with
  | located => exact hf
  | raised failure message => exact hlocated failure message
  | foreign message => exact hlocated .internal message

/-- What a native fails with has spans where it was called. -/
theorem nativeFault {info : NativeInfo} {f : Fault} (h : m.Placed c m.world.store)
    (hip : c.program.Spans m.ip) (hinfo : c.named info.name) (hf : f.Placed c.named) :
    (State.nativeFault m info f).Placed c.named := by
  have hraised : ∀ (failure : Failure) (message : Text),
      (Fault.located failure message #[m.problemAt m.ip failure message]
        (#[⟨Key.display info.name, none⟩] ++ m.traceAt m.ip)).Placed c.named := by
    intro failure message
    refine ⟨fun p hp => ?_, fun t ht => ?_⟩
    · rw [List.mem_singleton.mp (List.mem_toArray.mp hp)]
      exact h.problemAt hip failure message
    · rcases Array.mem_append.mp ht with ht | ht
      · rw [List.mem_singleton.mp (List.mem_toArray.mp ht)]
        exact Or.inr ⟨info.name, hinfo, rfl⟩
      · exact h.traceAt hip t ht
  cases f with
  | located failure message problems trace =>
    refine ⟨fun p hp => ?_, hf.2⟩
    rcases Array.mem_push.mp hp with hp | rfl
    · exact hf.1 p hp
    · exact h.problemAt hip _ _
  | raised failure message => exact hraised failure message
  | foreign message => exact hraised .hostCall _

end Machine.Placed

/-!
# States
-/

/-- The outcome's fault, if it is one, has spans. -/
def PlacedOutcome (named : Text → Prop) : Except Fault Value → Prop
  | .ok _ => True
  | .error f => f.Placed named

/-- Pending work below a running activation (`atCall = false`) or below a call that is asked for
(`atCall = true`). -/
inductive Awaited (c : Chart) (s : Store) : (atCall : Bool) → List Pending → Prop
  | root : Awaited c s false []
  | nested {sn : Snapshot} {rest : List Pending} (hsn : sn.Placed c s) (h : Awaited c s true rest) :
    Awaited c s false (.nested sn :: rest)
  | instruction {rest : List Pending} (h : Awaited c s false rest) :
    Awaited c s true (.instruction :: rest)
  | construct {i : InstanceId} {rest : List Pending} (h : Awaited c s true rest) :
    Awaited c s true (.construct i :: rest)
  | convert {rest : List Pending} (h : Awaited c s true rest) : Awaited c s true (.convert :: rest)
  | native {info : NativeInfo} {sn : Snapshot} {resume : Except Fault Value → World → Action}
    {given : List Fault} {kept : List Snapshot} {rest : List Pending} (hinfo : c.named info.name)
    (hsn : sn.Placed c s) (hgiven : ∀ f ∈ given, f.Placed c.named) (hkept : ∀ sn ∈ kept, sn.Placed c s)
    (hok : ∀ v w', (resume (.ok v) w').Honest given kept w'.store)
    (herror : ∀ f w', (resume (.error f) w').Honest (f :: given) kept w'.store)
    (h : Awaited c s true rest) : Awaited c s true (.native info sn resume :: rest)

theorem Awaited.extends {atCall : Bool} (h : Awaited c s atCall pending) (hs : s.Extends s') :
    Awaited c s' atCall pending := by
  induction h with
  | root => exact .root
  | nested hsn _ ih => exact .nested (hsn.extends hs) ih
  | instruction _ ih => exact .instruction ih
  | construct _ ih => exact .construct ih
  | convert _ ih => exact .convert ih
  | native hinfo hsn hgiven hkept hok herror _ ih =>
    exact .native hinfo (hsn.extends hs) hgiven (fun sn h => (hkept sn h).extends hs) hok herror ih

/-- The states of a run in which all that was located has spans. -/
inductive Located (c : Chart) : State → Prop
  | running {m : Machine} {pending : List Pending} (hm : m.Placed c m.world.store)
    (hs : Awaited c m.world.store false pending) : Located c ⟨m, pending, .running⟩
  | invoking {m : Machine} {pending : List Pending} {callee : Value} {args : List Value}
    (hm : m.Placed c m.world.store) (hip : c.program.Spans m.ip)
    (hs : Awaited c m.world.store true pending) : Located c ⟨m, pending, .invoking callee args⟩
  /-- A call that was asked for is over. -/
  | settled {m : Machine} {pending : List Pending} {o : Except Fault Value}
    (hm : m.Placed c m.world.store) (hip : c.program.Spans m.ip)
    (hs : Awaited c m.world.store true pending) (ho : PlacedOutcome c.named o) :
    Located c ⟨m, pending, .delivering o⟩
  /-- An activation has returned. -/
  | returned {m : Machine} {pending : List Pending} {v : Value} (hm : m.Placed c m.world.store)
    (hs : Awaited c m.world.store false pending) : Located c ⟨m, pending, .delivering (.ok v)⟩
  /-- An activation has failed at an instruction, or behind the last one. -/
  | broken {m : Machine} {pending : List Pending} {f : Fault} (hm : m.Placed c m.world.store)
    (hs : Awaited c m.world.store false pending) (hf : f.Placed c.named)
    (hip : c.program.Spans m.ip ∨ (c.program.size : Int) ≤ m.ip) :
    Located c ⟨m, pending, .delivering (.error f)⟩

/-- What a transition leads to. -/
def Advance.Located (c : Chart) : Advance → Prop
  | .next s => ScriptEngine.Located c s
  | .finished (.error f) m => m.Placed c m.world.store ∧ f.Placed c.named ∧
    (c.program.Spans m.ip ∨ (c.program.size : Int) ≤ m.ip)
  | _ => True

/-!
# Instructions
-/

theorem located_onward {n : Exec.Next} (hn : n.Onward) (hm : m.Placed c m.world.store)
    (hs : Awaited c m.world.store false pending) : Advance.Located c (State.proceed pending n m) := by
  cases n with
  | next | skip => exact .running (hm.of_same (Store.Grows.refl _).toExtends rfl rfl rfl rfl rfl) hs
  | stay | call | done => exact absurd hn id

/-- A fault of an instruction is located there. -/
theorem located_fault {op : Op} {f : Fault} (hm : m'.Placed c m'.world.store)
    (hs : Awaited c m'.world.store false pending) (hip : c.program.Spans m'.ip)
    (hstep : Exec.step op m = .error (.fault f) m') :
    Advance.Located c (State.after pending (.error (.fault f) m')) :=
  .broken hm hs (hm.locate hip (Exec.raises_step op m f m' hstep).placed) (Or.inl hip)

theorem Op.Silent.fault_free {op : Op} (h : op.Silent) {f : Fault} :
    Exec.step op m ≠ .error (.fault f) m' := by
  intro hstep
  cases op with
  | push v => cases hstep
  | pop =>
    have hstep : (Exec.pop >>= fun _ => pure Exec.Next.next) m = .error (.fault f) m' := hstep
    cases hrun : Exec.pop m with
    | ok v m₁ =>
      rw [Exec.bind_of_ok hrun] at hstep
      cases hstep
    | error e m₁ =>
      rw [Exec.bind_of_error hrun] at hstep
      cases hstep
      unfold Exec.pop at hrun
      split at hrun <;> cases hrun
  | _ => exact h

theorem located_works {op : Op} (hlocal : op.Local) (hm : m.Placed c m.world.store)
    (hs : Awaited c m.world.store false pending) (hop : op.Silent ∨ c.program.Spans m.ip) :
    Advance.Located c (State.after pending (Exec.step op m)) := by
  have hstep := Exec.works_step hlocal m
  unfold Exec.Works at hstep
  cases hrun : Exec.step op m with
  | ok n m' =>
    rw [hrun] at hstep
    exact located_onward hstep.2 (hm.works hstep.1) (hs.extends hstep.1.store.toExtends)
  | error e m' =>
    rw [hrun] at hstep
    cases e with
    | crash message => exact trivial
    | fault f =>
      have hip : c.program.Spans m.ip := hop.resolve_left fun h => h.fault_free hrun
      exact located_fault (hm.works hstep) (hs.extends hstep.store.toExtends) (hstep.ip ▸ hip) hrun

/-- A closure that is entered remembers the call site. -/
theorem located_entered {cl : Closure} {args : List Value} {reentry : Bool} {native : Text}
    {pending' : List Pending} (hm : m.Placed c m.world.store) (hip : c.program.Spans m.ip)
    (hnative : native.isEmpty = true ∨ c.named native)
    (hs : ∀ s, m.world.store.Extends s → Awaited c s false pending') :
    Located c ⟨m.entered cl args reentry native, pending', .running⟩ := by
  obtain ⟨j, hj⟩ := m.entered_eq cl args reentry native
  have hgrows := Store.Grows.newFrame m.world.store (m.callFrame cl args native)
  rw [hj]
  refine .running ⟨hm.program, hm.ops, hm.library, ?_, hm.natives⟩ (hs _ hgrows.toExtends)
  exact .boundary (Store.newFrame_frame? _ _) rfl (fun _ => hm.spanAt hip) hnative
    (hm.frame.extends hgrows.toExtends)

theorem located_call {op : Op} (hm : m.Placed c m.world.store)
    (hs : Awaited c m.world.store false pending) (hip : c.program.Spans m.ip)
    (hcalling : Exec.Calling m (Exec.step op m)) :
    Advance.Located c (State.after pending (Exec.step op m)) := by
  generalize hrun : Exec.step op m = r at hcalling
  cases hcalling with
  | @stopped e m' hworks =>
    cases e with
    | crash message => exact trivial
    | fault f =>
      exact located_fault (hm.works hworks) (hs.extends hworks.store.toExtends) (hworks.ip ▸ hip) hrun
  | handed hworks =>
    exact .invoking (hm.works hworks) (hworks.ip ▸ hip)
      (.instruction (hs.extends hworks.store.toExtends))
  | entered hworks =>
    exact located_entered (hm.works hworks) (hworks.ip ▸ hip) (Or.inl rfl) fun _ hextends =>
      (hs.extends hworks.store.toExtends).extends hextends

theorem located_ret (hm : m.Placed c m.world.store) (hs : Awaited c m.world.store false pending) :
    Advance.Located c (State.after pending (Exec.step .ret m)) := by
  have hstep := Exec.returning_ret m
  generalize Exec.step .ret m = r at hstep
  cases hstep with
  | crashed => exact trivial
  | ended hworks => exact .returned (hm.works hworks) (hs.extends hworks.store.toExtends)
  | @done v m' record b fr j hworks _ _ hb hfr =>
    have hm' := hm.works hworks
    refine .returned ((hm'.framed ?_).of_same (Store.Grows.refl _).toExtends rfl rfl rfl rfl rfl)
      (hs.extends hworks.store.toExtends)
    exact (hb ▸ hm'.frame.boundaryOf).caller hfr
  | @onward v m' record b fr j hworks _ _ hb hfr =>
    have hm' := hm.works hworks
    refine located_onward (n := .next) trivial
      ((hm'.framed ?_).of_same (Store.Grows.refl _).toExtends rfl rfl rfl rfl rfl)
      (hs.extends hworks.store.toExtends)
    exact (hb ▸ hm'.frame.boundaryOf).caller hfr

theorem located_scopeEnter (hm : m.Placed c m.world.store)
    (hs : Awaited c m.world.store false pending) :
    Advance.Located c (State.after pending (Exec.step .scopeEnter m)) := by
  have hgrows := Store.Grows.newFrame m.world.store ⟨Table.empty, m.frame, .block⟩
  rw [Exec.step_scopeEnter]
  refine located_onward (n := .next) trivial ?_ (hs.extends hgrows.toExtends)
  refine ⟨hm.program, hm.ops, hm.library, ?_, hm.natives⟩
  exact .block (Store.newFrame_frame? m.world.store ⟨Table.empty, m.frame, .block⟩) rfl
    (hm.frame.extends hgrows.toExtends)

theorem located_scopeExit (hm : m.Placed c m.world.store)
    (hs : Awaited c m.world.store false pending) :
    Advance.Located c (State.after pending (Exec.step .scopeExit m)) := by
  have hstep := Exec.closing_scopeExit m
  generalize Exec.step .scopeExit m = r at hstep
  cases hstep with
  | crashed => exact trivial
  | @left f fr hf hfr hkind =>
    refine located_onward (n := .next) trivial (hm.framed ?_) hs
    have htraced := hm.frame
    rw [hf] at htraced
    cases htraced with
    | block hf' _ h =>
      rw [hfr] at hf'
      cases hf'
      exact h
    | boundary hf' hkind' =>
      rw [hfr] at hf'
      cases hf'
      rw [Frame.isBoundary, hkind'] at hkind
      cases hkind

theorem located_buildFunc {d : Int} (hm : m.Placed c m.world.store)
    (hs : Awaited c m.world.store false pending) (hip : c.program.Spans m.ip) :
    Advance.Located c (State.after pending (Exec.step (.buildFunc d) m)) := by
  have hstep := Exec.building_buildFunc d m
  generalize hrun : Exec.step (.buildFunc d) m = r at hstep
  cases hstep with
  | @stopped e m' hworks =>
    cases e with
    | crash message => exact trivial
    | fault f =>
      exact located_fault (hm.works hworks) (hs.extends hworks.store.toExtends) (hworks.ip ▸ hip) hrun
  | @built m' params hworks =>
    have hextends := Store.Extends.newClosure m'.world.store
      ⟨m.ip + 1, m.frame, params, Text.empty, none⟩
    exact located_onward (n := .skip d) trivial
      ((hm.works hworks).of_same hextends rfl rfl rfl rfl rfl)
      ((hs.extends hworks.store.toExtends).extends hextends)

/-- At an instruction, executing is one step of it, which the journal may be told about. -/
theorem State.execute_inside {p : Program} (hp : m.program = some p) (hip : m.ip < p.size) :
    (∃ message m', State.execute m pending = .crashed message m') ∨
      ∃ op j, 0 ≤ m.ip ∧ m.ops[m.ip.toNat]? = some op ∧
        State.execute m pending = State.after pending (Exec.step op (m.withJournal j)) := by
  obtain ⟨j, hj⟩ : ∃ j, (if m.options.trace then m.tell .debug State.traceLine else m) =
      m.withJournal j := by
    split
    · exact m.tell_eq .debug State.traceLine
    · exact ⟨m.world.journal, rfl⟩
  unfold State.execute
  rw [hp]
  simp only [if_neg (Int.not_le.mpr hip), hj]
  split
  · exact Or.inl ⟨_, _, rfl⟩
  · rename_i hnonneg
    cases hop : m.ops[m.ip.toNat]? with
    | none =>
      refine Or.inl ⟨Exec.absent, m.withJournal j, ?_⟩
      simp only [show (m.withJournal j).ops[(m.withJournal j).ip.toNat]? = none from hop]
    | some op =>
      refine Or.inr ⟨op, j, Int.not_lt.mp hnonneg, rfl, ?_⟩
      simp only [show (m.withJournal j).ops[(m.withJournal j).ip.toNat]? = some op from hop]
      rfl

/-- One instruction, if there is one. -/
theorem execute_located (hc : c.Valid) (hm : m.Placed c m.world.store)
    (hs : Awaited c m.world.store false pending) : Advance.Located c (State.execute m pending) := by
  by_cases hend : (c.program.size : Int) ≤ m.ip
  · unfold State.execute
    rw [hm.program]
    simp only [if_pos hend]
    split
    · exact .returned hm hs
    · exact .broken hm hs trivial (Or.inr hend)
  rcases State.execute_inside hm.program (Int.not_le.mp hend) with ⟨_, _, h⟩ | ⟨op, j, hip, hop, h⟩
  · rw [h]
    trivial
  rw [h]
  have hm' : (m.withJournal j).Placed c (m.withJournal j).world.store :=
    hm.of_same (Store.Grows.refl _).toExtends rfl rfl rfl rfl rfl
  have hcovered : op.Silent ∨ c.program.Spans m.ip := by
    rw [hm.ops] at hop
    have hcovers := hc.covers m.ip.toNat op hop
    rwa [Int.toNat_of_nonneg hip] at hcovers
  cases op with
  | call => exact located_call hm' hs (hcovered.resolve_left id) (Exec.calling_call _)
  | dispatch op => exact located_call hm' hs (hcovered.resolve_left id) (Exec.calling_dispatch op _)
  | ret => exact located_ret hm' hs
  | scopeEnter => exact located_scopeEnter hm' hs
  | scopeExit => exact located_scopeExit hm' hs
  | buildFunc d => exact located_buildFunc hm' hs (hcovered.resolve_left id)
  | _ => exact located_works (by exact trivial) hm' hs hcovered

/-!
# Natives
-/

theorem failNative_located {info : NativeInfo} {sn : Snapshot} {f : Fault}
    (hm : m.Placed c m.world.store) (hs : Awaited c m.world.store true pending)
    (hinfo : c.named info.name) (hsn : sn.Placed c m.world.store) (hf : f.Placed c.named) :
    Advance.Located c (State.failNative m pending info sn f) := by
  have hrestored : (m.outOfNative.restore sn).Placed c m.world.store := hm.outOfNative.restore hsn
  rcases State.failNative_cases m pending info sn f with ⟨j, h⟩ | h
  · rw [h]
    refine .settled (hrestored.of_same (Store.Grows.refl _).toExtends rfl rfl rfl rfl rfl) hsn.ip hs ?_
    exact Machine.Placed.nativeFault (m := m.outOfNative.restore sn) hrestored hsn.ip hinfo hf
  · rw [h]
    trivial

/-- What the engine does for a native that works on the store. -/
theorem follow_located {info : NativeInfo} {sn : Snapshot} {a : Action} {given : List Fault}
    {kept : List Snapshot} (hinfo : c.named info.name) (hhonest : a.Honest given kept s)
    (hm : m.Placed c s) (hip : c.program.Spans m.ip) (hs : Awaited c s true pending)
    (hsn : sn.Placed c s) (hgiven : ∀ f ∈ given, f.Placed c.named)
    (hkept : ∀ sn ∈ kept, sn.Placed c s) :
    Advance.Located c (State.follow m pending info sn a) := by
  induction hhonest generalizing m with
  | done h =>
    rw [State.follow]
    exact .settled (hm.outOfNative.of_same h rfl rfl rfl rfl rfl) hip (hs.extends h) trivial
  | raised h =>
    rw [State.follow]
    exact failNative_located (hm.of_same h rfl rfl rfl rfl rfl) (hs.extends h) hinfo
      (hsn.extends h) trivial
  | foreign h =>
    rw [State.follow]
    exact failNative_located (hm.of_same h rfl rfl rfl rfl rfl) (hs.extends h) hinfo
      (hsn.extends h) trivial
  | passed h hf =>
    rw [State.follow]
    exact failNative_located (hm.of_same h rfl rfl rfl rfl rfl) (hs.extends h) hinfo
      (hsn.extends h) (hgiven _ hf)
  | crash =>
    rw [State.follow]
    trivial
  | invoke h hok herror =>
    rw [State.follow]
    exact .invoking (hm.of_same h rfl rfl rfl rfl rfl) hip
      (.native hinfo (hsn.extends h) hgiven (fun sn hmem => (hkept sn hmem).extends h) hok herror
        (hs.extends h))
  | depth h _ ih =>
    rw [State.follow]
    exact ih _ (hm.of_same h rfl rfl rfl rfl rfl) hip (hs.extends h) (hsn.extends h) hgiven
      fun sn hmem => (hkept sn hmem).extends h
  | save h _ ih =>
    rw [State.follow]
    refine ih _ (hm.of_same h rfl rfl rfl rfl rfl) hip (hs.extends h) (hsn.extends h) hgiven ?_
    intro sn' hmem
    rcases List.mem_cons.mp hmem with rfl | hmem
    · exact (hm.snapshot hip).extends h
    · exact (hkept sn' hmem).extends h
  | restore h hmem _ ih =>
    rw [State.follow]
    split
    · refine ih ((hm.restore (hkept _ hmem)).of_same h rfl rfl rfl rfl rfl) (hkept _ hmem).ip
        (hs.extends h) (hsn.extends h) hgiven fun sn hmem => (hkept sn hmem).extends h
    · trivial

theorem startNative_located (hc : c.Valid) {info : NativeInfo} {receiver : Option Value}
    {args : List Value} (hinfo : c.named info.name) (hm : m.Placed c m.world.store)
    (hip : c.program.Spans m.ip) (hs : Awaited c m.world.store true pending) :
    Advance.Located c (State.startNative m pending info receiver args) := by
  have henter : Advance.Located c
      (State.enterNative m pending info (Exec.withReceiver receiver args)) := by
    unfold State.enterNative
    split
    · exact .settled hm hip hs trivial
    · have hhonest := hc.honest info (Exec.withReceiver receiver args) m.world
      rw [← hm.library] at hhonest
      have hwithin : Machine.Placed c m.world.store
          { m with world := default, natives := m.natives.push info.name } :=
        (hm.within (Or.inr hinfo)).of_same (Store.Grows.refl _).toExtends rfl rfl rfl rfl rfl
      exact follow_located hinfo hhonest hwithin hip hs (hm.snapshot hip)
        (fun f hf => absurd hf List.not_mem_nil) fun sn hsn => absurd hsn List.not_mem_nil
  unfold State.startNative
  dsimp only
  split
  · split
    · exact .settled hm hip hs trivial
    · exact henter
  · exact henter

/-!
# Starting calls
-/

theorem startConversion_located {t : TypeInfo} {args : List Value} (hm : m.Placed c m.world.store)
    (hip : c.program.Spans m.ip) (hs : Awaited c m.world.store true pending) :
    Advance.Located c (State.startConversion m pending t args) := by
  unfold State.startConversion
  split
  · split
    · exact .invoking (hm.within (Or.inl rfl)) hip (.convert hs)
    · rename_i v _ _
      have hworks := Exec.quiet_convert v t.name m
      unfold State.convertValue
      unfold Exec.Works at hworks
      cases hrun : Exec.effect (Native.convert v t.name) m with
      | ok a m' =>
        rw [hrun] at hworks
        exact .settled (hm.works hworks.1) (hworks.1.ip ▸ hip) (hs.extends hworks.1.store.toExtends)
          trivial
      | error e m' =>
        rw [hrun] at hworks
        cases e with
        | crash message => exact trivial
        | fault f =>
          exact .settled (hm.works hworks) (hworks.ip ▸ hip) (hs.extends hworks.store.toExtends)
            (Exec.raises_convert v t.name m f m' hrun).placed
  · exact .settled hm hip hs trivial

theorem startConstruction_located {t : TypeInfo} {args : List Value} (hm : m.Placed c m.world.store)
    (hip : c.program.Spans m.ip) (hs : Awaited c m.world.store true pending) :
    Advance.Located c (State.startConstruction m pending t args) := by
  have hnew : m.world.store.Grows (m.world.store.newInstance t).2 := .of_same rfl rfl
  have hm' : (m.withStore (m.world.store.newInstance t).2).Placed c (m.world.store.newInstance t).2 :=
    hm.of_same hnew.toExtends rfl rfl rfl rfl rfl
  have hs' := hs.extends hnew.toExtends
  have honStore : Exec.onStore (fun s => s.newInstance t) m =
      .ok (m.world.store.newInstance t).1 (m.withStore (m.world.store.newInstance t).2) := rfl
  unfold State.startConstruction
  rw [honStore]
  dsimp only
  split
  · exact .invoking (hm'.within (Or.inl rfl)) hip (.construct hs')
  · split
    · exact .settled hm' hip hs' trivial
    · split
      · obtain ⟨hframes, hclosures⟩ := State.fill_same (m.world.store.newInstance t).2
          (m.world.store.newInstance t).1 (t.fields.zip args)
        have hfill := Store.Grows.of_same hframes hclosures
        exact .settled (hm'.of_same hfill.toExtends rfl rfl rfl rfl rfl) hip
          (hs'.extends hfill.toExtends) trivial
      · exact .settled hm' hip hs' trivial

theorem startNested_located {cl : Closure} {args : List Value} (hm : m.Placed c m.world.store)
    (hip : c.program.Spans m.ip) (hs : Awaited c m.world.store true pending) :
    Advance.Located c (State.startNested m pending cl args) := by
  have hnative : (m.natives.back?.getD Text.empty).isEmpty = true ∨
      c.named (m.natives.back?.getD Text.empty) := by
    cases hback : m.natives.back? with
    | none => exact Or.inl rfl
    | some name => exact hm.natives name (Array.mem_of_back? hback)
  unfold State.startNested
  dsimp only
  cases hrun : Exec.enterClosure cl args true (m.natives.back?.getD Text.empty) m with
  | ok u m' =>
    rcases Exec.enterClosure_spec cl args true (m.natives.back?.getD Text.empty) m with
      ⟨hok, -⟩ | ⟨f, hf⟩
    · rw [hok] at hrun
      cases hrun
      exact located_entered hm hip hnative fun s hextends =>
        .nested ((hm.snapshot hip).extends hextends) (hs.extends hextends)
    · rw [hf] at hrun
      cases hrun
  | error e m' =>
    rcases Exec.enterClosure_spec cl args true (m.natives.back?.getD Text.empty) m with
      ⟨hok, -⟩ | ⟨f, hf⟩
    · rw [hok] at hrun
      cases hrun
    · have hraised := Exec.raises_enterClosure cl args true _ m f m hf
      rw [hf] at hrun
      cases hrun
      dsimp only
      split
      · exact .settled (hm.restore (hm.snapshot hip)) hip hs hraised.placed
      · trivial

theorem invoke_located (hc : c.Valid) {callee : Value} {args : List Value}
    (hnamed : ∀ info, (callee = .native info ∨ ∃ r, callee = .bound info r) → c.named info.name)
    (hm : m.Placed c m.world.store) (hip : c.program.Spans m.ip)
    (hs : Awaited c m.world.store true pending) :
    Advance.Located c (State.invoke m pending callee args) := by
  cases callee with
  | closure id =>
    unfold State.invoke
    dsimp only
    split
    · exact startNested_located hm hip hs
    · trivial
  | native info => exact startNative_located hc (hnamed info (Or.inl rfl)) hm hip hs
  | bound info receiver =>
    exact startNative_located hc (hnamed info (Or.inr ⟨receiver, rfl⟩)) hm hip hs
  | type t =>
    unfold State.invoke
    dsimp only
    split
    · exact startConstruction_located hm hip hs
    · exact startConversion_located hm hip hs
  | _ => exact .settled hm hip hs trivial

/-!
# Handing over outcomes
-/

/-- The outcome of a call for the work that asked for it. -/
theorem handOut_located {o : Except Fault Value} (hm : m.Placed c m.world.store)
    (hip : c.program.Spans m.ip) (hs : Awaited c m.world.store true pending)
    (ho : PlacedOutcome c.named o) : Advance.Located c (State.handOut m pending o) := by
  cases hs with
  | instruction h =>
    cases o with
    | ok v =>
      exact .running (hm.of_same (Store.Grows.refl _).toExtends rfl rfl rfl rfl rfl) h
    | error f => exact .broken hm h (hm.locate hip ho) (Or.inl hip)
  | construct h =>
    refine .settled hm.outOfNative hip h ?_
    cases o with
    | ok v => exact trivial
    | error f => exact ho
  | convert h => exact .settled hm.outOfNative hip h ho
  | native hinfo hsn hgiven hkept hok herror h =>
    unfold State.handOut State.handOver
    dsimp only
    have hm' : { m with world := default }.Placed c m.world.store :=
      hm.of_same (Store.Grows.refl _).toExtends rfl rfl rfl rfl rfl
    cases o with
    | ok v => exact follow_located hinfo (hok v m.world) hm' hip h hsn hgiven hkept
    | error f =>
      refine follow_located hinfo (herror f m.world) hm' hip h hsn ?_ hkept
      intro f' hmem
      rcases List.mem_cons.mp hmem with rfl | hmem
      · exact ho
      · exact hgiven f' hmem

/-- One transition keeps what was located. -/
theorem advance_located (hc : c.Valid) {st : State}
    (hnamed : ∀ info callee args, st.mode = .invoking callee args →
      (callee = .native info ∨ ∃ r, callee = .bound info r) → c.named info.name)
    (h : Located c st) : Advance.Located c st.advance := by
  cases h with
  | running hm hs => exact execute_located hc hm hs
  | @invoking _ _ callee args hm hip hs =>
    exact invoke_located hc (fun info => hnamed info callee args rfl) hm hip hs
  | settled hm hip hs ho => exact handOut_located hm hip hs ho
  | returned hm hs =>
    cases hs with
    | root => exact trivial
    | nested hsn h =>
      exact .settled (hm.of_same (Store.Grows.refl _).toExtends rfl rfl rfl rfl rfl) hsn.ip h trivial
  | broken hm hs hf hip =>
    cases hs with
    | root => exact ⟨hm, hf, hip⟩
    | nested hsn h =>
      unfold State.advance State.handOut State.endNested
      dsimp only
      split
      · exact .settled (hm.restore hsn) hsn.ip h hf
      · trivial

/-!
# Runs
-/

/-- The native is called at some time while the engine executes the program. -/
def Machine.CallsNative (m : Machine) (p : Program) (info : NativeInfo) : Prop :=
  ∃ st callee args, m.Reaches p st ∧ st.mode = .invoking callee args ∧
    (callee = .native info ∨ ∃ r, callee = .bound info r)

/-- What is known of the execution of a program. -/
def Chart.ofExecution (m : Machine) (p : Program) : Chart :=
  ⟨p, (Op.ofProgram p).ops, m.library, fun name => ∃ info, m.CallsNative p info ∧ info.name = name⟩

theorem Machine.start_located (m : Machine) (p : Program) :
    Located (.ofExecution m p) (m.start p) := by
  obtain ⟨j, hj⟩ := m.loaded_eq p
  unfold Machine.start
  rw [hj]
  refine .running ⟨rfl, rfl, rfl, ?_, fun name h => absurd h (Array.not_mem_empty name)⟩ .root
  exact .boundary (Store.newFrame_frame? m.world.store
    ⟨Table.empty, none, .boundary m.options.rootName none none Text.empty⟩) rfl
    (fun h => absurd rfl h) (Or.inl rfl) .none

/-- All states that come up in an execution. -/
theorem Machine.Reaches.located {p : Program} (hc : (Chart.ofExecution m p).Valid) {st : State}
    (h : m.Reaches p st) : Located (.ofExecution m p) st := by
  induction h with
  | refl => exact m.start_located p
  | @step st' st'' hleads hnext ih =>
    have hnamed : ∀ info callee args, st'.mode = .invoking callee args →
        (callee = .native info ∨ ∃ r, callee = .bound info r) →
        (Chart.ofExecution m p).named info.name :=
      fun info callee args hmode hcallee => ⟨info, ⟨st', callee, args, hleads, hmode, hcallee⟩, rfl⟩
    have hadvance := advance_located hc hnamed ih
    rw [hnext] at hadvance
    exact hadvance

end
end ScriptEngine
