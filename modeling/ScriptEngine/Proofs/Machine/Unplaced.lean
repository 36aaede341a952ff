import ScriptEngine.Proofs.Machine.Guises
import ScriptEngine.Proofs.Program.Unplaced

/-!
# Engines without places

An engine without places has a debug table whose nodes are at no particular place, frames of calls made
at no particular place, and a journal that keeps nothing. It has the same operands, objects and bindings
and the same host. Its diagnostics are those of the engine, without places.
-/

namespace ScriptEngine

/-!
# The guise
-/

/-- The span of a node at no particular place, if there is a node. -/
abbrev unplacedSpan : Option Span → Option Span :=
  Option.map fun _ => Span.zero

def FrameKind.unplaced : FrameKind → FrameKind
  | .block => .block
  | .boundary name site caller native => .boundary name (unplacedSpan site) caller native

namespace Frame

/-- The frame of a call that was made at no particular place. -/
def unplaced (fr : Frame) : Frame :=
  { fr with kind := fr.kind.unplaced }

theorem guise_unplaced : Frame.Guise unplaced where
  vars _ := rfl
  outer _ := rfl
  isBoundary fr := by
    obtain ⟨vars, outer, kind⟩ := fr
    cases kind <;> rfl
  name fr := by
    obtain ⟨vars, outer, kind⟩ := fr
    cases kind <;> rfl
  caller fr := by
    obtain ⟨vars, outer, kind⟩ := fr
    cases kind <;> rfl
  bind _ _ := rfl
  block _ _ := rfl

theorem site_unplaced (fr : Frame) : fr.unplaced.site = unplacedSpan fr.site := by
  obtain ⟨vars, outer, kind⟩ := fr
  cases kind <;> rfl

theorem native_unplaced (fr : Frame) : fr.unplaced.native = fr.native := by
  obtain ⟨vars, outer, kind⟩ := fr
  cases kind <;> rfl

end Frame

namespace Machine

/-- The engine with the debug table of its program at no particular places. -/
def withoutSpans (m : Machine) : Machine :=
  { m with program := m.program.map Program.unplaced }

theorem entryAt_withoutSpans (m : Machine) (ip : Int) :
    m.withoutSpans.entryAt ip = (m.entryAt ip).map DebugEntry.unplaced := by
  unfold entryAt withoutSpans
  cases m.program with
  | none => rfl
  | some p => exact DebugTable.lookup_unplaced ..

theorem spanAt_withoutSpans (m : Machine) (ip : Int) :
    m.withoutSpans.spanAt ip = unplacedSpan (m.spanAt ip) := by
  unfold spanAt
  rw [entryAt_withoutSpans]
  cases m.entryAt ip <;> rfl

end Machine

/-- Engines without places. -/
def Guise.placeless : Guise where
  frame := Frame.unplaced
  label := id
  program := Option.map Program.unplaced
  journal _ := Journal.new false
  frames := Frame.guise_unplaced
  unlabelled := rfl
  add _ _ := rfl
  call m cl args native := by
    unfold Machine.callFrame Frame.unplaced FrameKind.unplaced
    dsimp only
    rw [← m.spanAt_withoutSpans]
    rfl

/-- The store with all calls made at no particular place. -/
def Store.unplaced (s : Store) : Store :=
  Guise.placeless.store s

/-- The world without places, and without a journal to which they could be told. -/
def World.unplaced (w : World) : World :=
  Guise.placeless.world w

/-- The engine without places. -/
def Machine.unplaced (m : Machine) : Machine :=
  Guise.placeless.machine id m

namespace Fault

/-- The fault with diagnostics and history at no particular places. -/
def unplaced : Fault → Fault
  | located failure message problems trace =>
    .located failure message (problems.map Problem.unplaced) (trace.map TraceFrame.unplaced)
  | f => f

@[simp] theorem failure_unplaced (f : Fault) : f.unplaced.failure = f.failure := by
  cases f <;> rfl

@[simp] theorem message_unplaced (f : Fault) : f.unplaced.message = f.message := by
  cases f <;> rfl

@[simp] theorem problems_unplaced (f : Fault) :
    f.unplaced.problems = f.problems.map Problem.unplaced := by
  cases f with
  | located => rfl
  | raised | foreign => exact Array.map_empty.symm

@[simp] theorem trace_unplaced (f : Fault) :
    f.unplaced.trace = f.trace.map TraceFrame.unplaced := by
  cases f with
  | located => rfl
  | raised | foreign => exact Array.map_empty.symm

theorem unplaced_located (failure : Failure) (message : Text) (p : Problem) (trace : Trace) :
    (located failure message #[p] trace).unplaced =
      .located failure message #[p.unplaced] (trace.map TraceFrame.unplaced) := by
  simp [unplaced]

end Fault

/-- The outcome with a fault at no particular place. -/
def unplacedOutcome : Except Fault Value → Except Fault Value
  | .ok v => .ok v
  | .error f => .error f.unplaced

namespace Machine

variable (m : Machine)

/-!
# Diagnostics
-/

theorem entryAt_unplaced (ip : Int) :
    m.unplaced.entryAt ip = (m.entryAt ip).map DebugEntry.unplaced :=
  m.entryAt_withoutSpans ip

theorem spanAt_unplaced (ip : Int) : m.unplaced.spanAt ip = unplacedSpan (m.spanAt ip) :=
  m.spanAt_withoutSpans ip

/-- The kind of the node around an instruction decides code, message and hint; its place does not. -/
theorem problemAt_unplaced (ip : Int) (f : Failure) (message : Text) :
    m.unplaced.problemAt ip f message = (m.problemAt ip f message).unplaced := by
  unfold problemAt
  rw [entryAt_unplaced]
  cases m.entryAt ip <;> rfl

theorem traceFrom_unplaced (s : Store) (fuel : Nat) (b : Option FrameId) (site : Option Span)
    (acc : Trace) :
    traceFrom s.unplaced fuel b (unplacedSpan site) (acc.map TraceFrame.unplaced) =
      (traceFrom s fuel b site acc).map TraceFrame.unplaced := by
  induction fuel generalizing b site acc with
  | zero => rfl
  | succ fuel ih =>
    cases b with
    | none => rfl
    | some b =>
      have hboundary : ∀ f, s.unplaced.boundary f = s.boundary f :=
        s.boundary_guised Frame.guise_unplaced
      rw [traceFrom, traceFrom, show s.unplaced.frame? b = (s.frame? b).map Frame.unplaced from
        s.frame?_guised b]
      cases s.frame? b with
      | none => rfl
      | some fr =>
        have hpush : ∀ (acc : Trace) name span,
            (acc.map TraceFrame.unplaced).push ⟨name, unplacedSpan span⟩ =
              (acc.push ⟨name, span⟩).map TraceFrame.unplaced := by
          intro acc name span
          rw [Array.map_push]
          rfl
        have hnative : ∀ (acc : Trace) name, (acc.map TraceFrame.unplaced).push ⟨name, none⟩ =
            (acc.push ⟨name, none⟩).map TraceFrame.unplaced :=
          fun acc name => hpush acc name none
        simp only [Option.map_some, Frame.guise_unplaced.name, Frame.guise_unplaced.caller,
          Frame.native_unplaced, Frame.site_unplaced, hboundary, hpush, hnative,
          ← apply_ite (Array.map TraceFrame.unplaced)]
        cases fr.caller with
        | none => rfl
        | some caller => exact ih ..

theorem traceAt_unplaced (ip : Int) : m.unplaced.traceAt ip = (m.traceAt ip).map TraceFrame.unplaced := by
  have hboundary : m.unplaced.world.store.boundary m.unplaced.frame = m.world.store.boundary m.frame :=
    Store.boundary_guised _ Frame.guise_unplaced _
  have hsize : m.unplaced.world.store.frames.size = m.world.store.frames.size :=
    Store.size_frames_guised _
  unfold traceAt
  dsimp only
  rw [hboundary, hsize, spanAt_unplaced, ← traceFrom_unplaced, Array.map_empty]
  rfl

theorem locate_unplaced (f : Fault) : m.unplaced.locate f.unplaced = (m.locate f).unplaced := by
  have hplace : ∀ failure message,
      Fault.located failure message #[m.unplaced.problemAt m.unplaced.ip failure message]
        (m.unplaced.traceAt m.unplaced.ip) =
      Fault.unplaced (.located failure message #[m.problemAt m.ip failure message]
        (m.traceAt m.ip)) := by
    intro failure message
    rw [problemAt_unplaced, traceAt_unplaced, Fault.unplaced_located]
    rfl
  cases f with
  | located => rfl
  | raised failure message => exact hplace failure message
  | foreign message => exact hplace .internal message

/-- The fault of a native is put into words that tell no place. -/
theorem nativeFault_unplaced (n : NativeInfo) (f : Fault) :
    State.nativeFault m.unplaced n f.unplaced = (State.nativeFault m n f).unplaced := by
  have hplace : ∀ failure message,
      Fault.located failure message #[m.unplaced.problemAt m.unplaced.ip failure message]
        (#[⟨Key.display n.name, none⟩] ++ m.unplaced.traceAt m.unplaced.ip) =
      Fault.unplaced (.located failure message #[m.problemAt m.ip failure message]
        (#[⟨Key.display n.name, none⟩] ++ m.traceAt m.ip)) := by
    intro failure message
    have hhead : (#[⟨Key.display n.name, none⟩] : Trace).map TraceFrame.unplaced =
        #[⟨Key.display n.name, none⟩] := by
      simp [TraceFrame.unplaced]
    rw [problemAt_unplaced, traceAt_unplaced, Fault.unplaced_located, Array.map_append, hhead]
    rfl
  cases f with
  | located failure message problems trace =>
    unfold State.nativeFault Fault.unplaced
    dsimp only
    rw [Array.getElem?_map, problemAt_unplaced, Array.map_push]
    cases problems[0]? <;> rfl
  | raised failure message => exact hplace failure message
  | foreign message => exact hplace .hostCall _

/-!
# What looks the same
-/

theorem resolve_unplaced (name : Text) : m.unplaced.resolve name = m.resolve name :=
  (Guise.placeless.view id).resolve m name

theorem typeName_unplaced (v : Value) : m.unplaced.world.store.typeName v = m.world.store.typeName v :=
  (Guise.placeless.view id).typeName m.world.store v

theorem tell_unplaced (level : Level) (text : Machine → Text) :
    (m.tell level text).unplaced = m.unplaced := by
  obtain ⟨j, hj⟩ := m.tell_eq level text
  rw [hj]
  rfl

end Machine
end ScriptEngine
