import ScriptEngine.Proofs.Compiler.Unplaced
import ScriptEngine.Proofs.Execution.Equality
import ScriptEngine.Proofs.Machine.Agreement
import ScriptEngine.Session

/-!
# Places in the source text do not matter

Trees that differ in places only are compiled to the same code, with nodes of the same kinds around the
same instructions, and with the same diagnostics but for their places. Executions of what they are
compiled to take the same transitions: they end together, with the same value or with diagnostics that
differ in places only, and leave the same objects, bindings and output behind.

The engine puts places into the text of errors, and a native may read that text. So the natives must not
look at places, which no native of the language's own library does.
-/

namespace ScriptEngine

/-!
# Executions
-/

/-- The end of a run, with diagnostics and history at no particular places. -/
def Ending.unplaced : Ending → Ending
  | .value v => .value v
  | .failed problems trace => .failed (problems.map Problem.unplaced) (trace.map TraceFrame.unplaced)

/-- What an execution gives, without places. -/
def unplacedExecution (r : Ending × Machine) : Ending × Machine :=
  (r.1.unplaced, r.2.unplaced)

namespace Machine

variable {L : Library} {a b m : Machine} {p q : Program}

theorem reset_unplaced (m : Machine) (p : Program) :
    (m.reset p).unplaced = m.unplaced.reset p.unplaced := by
  obtain ⟨⟨store, host, journal⟩, library, options, program, ops, ip, stack, frame, root, captured,
    calls, natives⟩ := m
  have hstore : (store.newRoot options.rootName).2.unplaced =
      (store.unplaced.newRoot options.rootName).2 := store.newFrame_guised _
  have hroot : (store.unplaced.newRoot options.rootName).1 = (store.newRoot options.rootName).1 :=
    store.size_frames_guised
  unfold reset
  show ({ world := ⟨(store.newRoot options.rootName).2.unplaced, host, Journal.new false⟩,
          frame := some (store.newRoot options.rootName).1
          root := some (store.newRoot options.rootName).1, .. } : Machine) = _
  rw [hstore, ← hroot]
  rfl

/-- Engines about to execute programs that differ in places only. -/
theorem Agrees.reset (h : a.Agrees L b) (hp : p.unplaced = q.unplaced) :
    (a.reset p).Agrees L (b.reset q) := by
  refine ⟨?_, h.library⟩
  rw [reset_unplaced, reset_unplaced, h.same, hp]

/-- What is said about diagnostics does not matter. -/
theorem Agrees.tellAll (h : a.Agrees L b) (problems : Array Problem) (text : Problem → Text) :
    (problems.foldl (fun m p => m.tell .debug fun _ => text p) a).Agrees L b := by
  rw [← Array.foldl_toList]
  induction problems.toList generalizing a with
  | nil => exact h
  | cons p rest ih => exact ih (h.tellOne ..)

theorem Agrees.endFaulty (h : a.Agrees L b) {f f' : Fault} (hf : f.unplaced = f'.unplaced) :
    unplacedExecution (a.endFaulty f) = unplacedExecution (b.endFaulty f') := by
  -- Each engine locates the fault at a place of its own: the two are equal only without places.
  have hlocated := h.locate hf
  have hproblems : (a.locate f).problems.map Problem.unplaced =
      (b.locate f').problems.map Problem.unplaced := by
    rw [← Fault.problems_unplaced, hlocated, Fault.problems_unplaced]
  have htrace : (a.locate f).trace.map TraceFrame.unplaced =
      (b.locate f').trace.map TraceFrame.unplaced := by
    rw [← Fault.trace_unplaced, hlocated, Fault.trace_unplaced]
  have htold := (((h.tellAll (a.locate f).problems fun p => "runtime problem: " ++ p.text).symm).tellAll
    (b.locate f').problems fun p => "runtime problem: " ++ p.text).symm
  exact Prod.ext (congrArg₂ Ending.failed hproblems htrace) htold.same

theorem endCrashed_unplaced (m : Machine) (message : Text) :
    unplacedExecution (m.endCrashed message) =
      (.failed #[m.unplaced.problemAt m.unplaced.ip .internal ("internal error: " ++ message)] #[],
        m.unplaced) := by
  unfold endCrashed unplacedExecution Ending.unplaced
  dsimp only
  rw [tell_unplaced, problemAt_unplaced, show m.unplaced.ip = m.ip from rfl]
  simp

theorem endWell_unplaced (m : Machine) (v : Value) :
    unplacedExecution (m.endWell v) = (.value v, m.unplaced) :=
  Prod.ext rfl (m.tell_unplaced ..)

/-- Executions of programs that differ in places only end together and with the same but for places. -/
theorem Agrees.execute (hL : L.IgnoresPlaces) (h : a.Agrees L b) (hp : p.unplaced = q.unplaced)
    (fuel : Nat) :
    (a.execute fuel p).map unplacedExecution = (b.execute fuel q).map unplacedExecution := by
  have hops : Op.ofProgram p = Op.ofProgram q :=
    congrArg (fun code : Array Instruction => Op.decodeAll code.toList 0 #[]) (Program.mk.inj hp).1
  have hreset := h.reset hp
  have hdump : (a.reset p).options = (b.reset q).options := hreset.shows (·.options) fun _ => rfl
  have hstart : (if (a.reset p).options.dump then
        (a.reset p).tell .info fun _ => "program:\n" ++ p.listing else a.reset p).Agrees L
      (if (b.reset q).options.dump then
        (b.reset q).tell .info fun _ => "program:\n" ++ q.listing else b.reset q) := by
    rw [hdump]
    split
    · exact hreset.tell ..
    · exact hreset
  unfold Machine.execute
  dsimp only
  rw [hops]
  -- The listing told before the run is the same as well, but journals are left out anyway.
  generalize (if (a.reset p).options.dump then _ else _ : Machine) = a' at hstart ⊢
  generalize (if (b.reset q).options.dump then _ else _ : Machine) = b' at hstart ⊢
  have hloaded := hstart.map (fun m => { m with ops := (Op.ofProgram q).ops }) (fun _ => rfl) rfl
  cases (Op.ofProgram q).flaw with
  | some flaw =>
    exact congrArg some ((hloaded.map (fun m => { m with ip := flaw.1 }) (fun _ => rfl) rfl).endFaulty rfl)
  | none =>
    have hrun := State.Agrees.run hL (s := ⟨{ a' with ops := (Op.ofProgram q).ops }, [], .running⟩)
      (t := ⟨{ b' with ops := (Op.ofProgram q).ops }, [], .running⟩) ⟨hloaded, .nil, .running⟩ fuel
    dsimp only
    rcases hrun with ⟨hs, ht⟩ | ⟨e, e', hs, ht, hend⟩
    · rw [hs, ht]
    · rw [hs, ht]
      cases hend with
      | next => rfl
      | @crashed message m m' h =>
        show some (unplacedExecution (m.endCrashed message)) =
          some (unplacedExecution (m'.endCrashed message))
        rw [endCrashed_unplaced, endCrashed_unplaced, h]
      | finished h ho =>
        rcases unplacedOutcome_cases ho with ⟨v, rfl, rfl⟩ | ⟨f, f', rfl, rfl, hf⟩
        · show some (unplacedExecution (endWell _ v)) = some (unplacedExecution (endWell _ v))
          rw [endWell_unplaced, endWell_unplaced, h.same]
        · exact congrArg some (h.endFaulty hf)

end Machine

/-!
# What is the same
-/

namespace Compiler

/-- Compiled trees are the same to whoever does not look at places. -/
structure Compiled.Alike (c c' : Compiled) : Prop where
  code : c.program.code = c'.program.code
  debug : c.program.debug.map (fun e => (e.stop, e.length, e.kind)) =
    c'.program.debug.map fun e => (e.stop, e.length, e.kind)
  problems : c.problems.map (fun p => (p.code, p.message, p.hint)) =
    c'.problems.map fun p => (p.code, p.message, p.hint)
  listing : c.program.listing = c'.program.listing
  digest : Report.programHash (some c.program) = Report.programHash (some c'.program)

/-- Trees are refused alike, or are both compiled; the linker is left in the same state. -/
inductive Outcome.Alike : Outcome → Outcome → Prop
  | refused {e : Refusal} {exporting : Bool} : Alike ⟨.error e, exporting⟩ ⟨.error e, exporting⟩
  | compiled {c c' : Compiled} {exporting : Bool} (h : c.Alike c') :
    Alike ⟨.ok c, exporting⟩ ⟨.ok c', exporting⟩

end Compiler

/-- The same value, or diagnostics with the same codes, messages and hints and the same names in the call
history. -/
inductive Ending.Alike : Ending → Ending → Prop
  | value {v : Value} : Alike (.value v) (.value v)
  | failed {problems problems' : Array Problem} {trace trace' : Trace}
    (hproblems : problems.map (fun p => (p.code, p.message, p.hint)) =
      problems'.map fun p => (p.code, p.message, p.hint))
    (htrace : trace.map (·.name) = trace'.map (·.name)) :
    Alike (.failed problems trace) (.failed problems' trace')

/-- The engines differ in places only: with the same output, objects and bindings, all values look the
same in them. -/
structure Machine.Alike (m m' : Machine) : Prop where
  unplaced : m.unplaced = m'.unplaced
  host : m.world.host = m'.world.host
  repr : ∀ v, m.world.store.repr v = m'.world.store.repr v
  globals : m.globals = m'.globals

/-- The executions both go on for too long, or end alike. -/
inductive Execution.Alike : Option (Ending × Machine) → Option (Ending × Machine) → Prop
  | unfinished : Alike none none
  | finished {e e' : Ending} {m m' : Machine} (he : e.Alike e') (hm : m.Alike m') :
    Alike (some (e, m)) (some (e', m'))

theorem Compiler.Outcome.alike {o o' : Outcome} (h : o.unplaced = o'.unplaced) : o.Alike o' := by
  obtain ⟨result, exporting⟩ := o
  obtain ⟨result', exporting'⟩ := o'
  obtain ⟨hresult, hexporting⟩ := Outcome.mk.inj h
  dsimp only at hresult hexporting
  subst hexporting
  cases result with
  | error e =>
    cases result' with
    | error e' =>
      cases hresult
      exact .refused
    | ok c' => cases hresult
  | ok c =>
    cases result' with
    | error e' => cases hresult
    | ok c' =>
      obtain ⟨hprogram, hproblems⟩ := Compiled.mk.inj (Except.ok.inj hresult)
      obtain ⟨hcode, hdebug, hlisting, hdigest⟩ := Program.same_of_unplaced hprogram
      exact .compiled ⟨hcode, hdebug, map_eq_of_unplaced hproblems fun _ => rfl, hlisting, hdigest⟩

theorem Ending.alike {e e' : Ending} (h : e.unplaced = e'.unplaced) : e.Alike e' := by
  cases e with
  | value v =>
    cases e' with
    | value v' =>
      cases h
      exact .value
    | failed => cases h
  | failed problems trace =>
    cases e' with
    | value v' => cases h
    | failed problems' trace' =>
      obtain ⟨hproblems, htrace⟩ := Ending.failed.inj h
      refine .failed (Array.toList_inj.mp ?_) (Array.toList_inj.mp ?_)
      · have hlists := congrArg Array.toList hproblems
        rw [Array.toList_map, Array.toList_map] at hlists ⊢
        exact map_eq_of_unplaced hlists fun _ => rfl
      · have hlists := congrArg Array.toList htrace
        rw [Array.toList_map, Array.toList_map] at hlists ⊢
        exact map_eq_of_unplaced hlists fun _ => rfl

theorem Machine.globals_unplaced (m : Machine) : m.unplaced.globals = m.globals := by
  have hroot : m.unplaced.root.bind m.unplaced.world.store.frame? =
      (m.root.bind m.world.store.frame?).map Frame.unplaced := by
    rw [Option.map_bind]
    exact congrArg m.root.bind (funext m.world.store.frame?_guised)
  unfold globals
  rw [hroot]
  cases m.root.bind m.world.store.frame? <;> rfl

theorem Machine.alike {m m' : Machine} (h : m.unplaced = m'.unplaced) : m.Alike m' := by
  have hagrees : m.Agrees m'.library m' := ⟨h, rfl⟩
  exact {
    unplaced := h
    host := hagrees.shows (·.world.host) fun _ => rfl
    repr := fun v => hagrees.shows (·.world.store.repr v) fun m => m.world.store.repr_guised v
    globals := hagrees.shows (·.globals) Machine.globals_unplaced }

theorem Execution.alike {r r' : Option (Ending × Machine)}
    (h : r.map unplacedExecution = r'.map unplacedExecution) : Execution.Alike r r' := by
  cases r with
  | none =>
    cases r' with
    | none => exact .unfinished
    | some => cases h
  | some r =>
    cases r' with
    | none => cases h
    | some r' =>
      obtain ⟨hending, hmachine⟩ := Prod.mk.inj (Option.some.inj h)
      exact .finished (Ending.alike hending) (Machine.alike hmachine)

/-- Trees that differ in places only are compiled to the same, but for places, and execute the same. -/
theorem places_do_not_matter (linker : Linker) (exporting : Bool) {body body' : List Stmt}
    (h : body.map Stmt.unplaced = body'.map Stmt.unplaced) :
    (Compiler.compile linker exporting body).Alike (Compiler.compile linker exporting body') ∧
      ∀ c c', (Compiler.compile linker exporting body).result = .ok c →
        (Compiler.compile linker exporting body').result = .ok c' →
        ∀ m m' : Machine, m.library.IgnoresPlaces → m.unplaced = m'.unplaced → ∀ fuel,
          Execution.Alike (m.execute fuel c.program) (m'.execute fuel c'.program) := by
  have hcompiled := Compiler.compile_alike linker exporting h
  refine ⟨Compiler.Outcome.alike hcompiled, ?_⟩
  intro c c' hc hc' m m' hignores hm fuel
  have hagrees : m'.Agrees m.library m := ⟨hm.symm, rfl⟩
  have hprogram : c.program.unplaced = c'.program.unplaced := by
    have hresult := congrArg Compiler.Outcome.result hcompiled
    unfold Compiler.Outcome.unplaced at hresult
    rw [hc, hc'] at hresult
    exact congrArg Compiler.Compiled.program (Except.ok.inj hresult)
  exact Execution.alike (hagrees.symm.execute hignores hprogram fuel)

/-- The places that the diagnostics of a run point at. -/
def Ending.places : Ending → List (Option Span)
  | .value _ => []
  | .failed problems _ => problems.toList.map (·.span)

/-- A node at the beginning of a line. -/
def Span.onLine (line : Int) : Span :=
  ⟨Text.empty, ⟨line, 1⟩, ⟨line, 2⟩⟩

/-- The program `print(missing)`, with the name at some place. -/
def printedUnbound (s : Span) : List Stmt :=
  [.expr .zero (.call .zero (.var .zero "print") [.var s "missing"])]

theorem places_do_not_matter_printedUnbound :
    ∃ c c' e e' m m', (Compiler.compile .absent false (printedUnbound .zero)).result = .ok c ∧
      (Compiler.compile .absent false (printedUnbound (.onLine 2))).result = .ok c' ∧
      standardEngine.execute 30 c.program = some (e, m) ∧
      standardEngine.execute 30 c'.program = some (e', m') ∧
      e.places ≠ e'.places ∧ e.Alike e' ∧ m.Alike m' := by
  obtain ⟨c, c', hc, hc', hends⟩ :
      ∃ c c', (Compiler.compile .absent false (printedUnbound .zero)).result = .ok c ∧
        (Compiler.compile .absent false (printedUnbound (.onLine 2))).result = .ok c' ∧
        (standardEngine.execute 30 c.program).any (fun r =>
          (standardEngine.execute 30 c'.program).any (fun r' => r.1.places != r'.1.places)) = true :=
    ⟨_, _, rfl, rfl, by decide +kernel⟩
  obtain ⟨⟨e, m⟩, hexecute, hends⟩ := (Option.any_eq_true _ _).mp hends
  obtain ⟨⟨e', m'⟩, hexecute', hplaces⟩ := (Option.any_eq_true _ _).mp hends
  have hbodies : (printedUnbound .zero).map Stmt.unplaced =
      (printedUnbound (.onLine 2)).map Stmt.unplaced := rfl
  have halike := (places_do_not_matter .absent false hbodies).2 c c' hc hc' standardEngine
    standardEngine (Library.ignoresPlaces_of_standard rfl) rfl 30
  rw [hexecute, hexecute'] at halike
  cases halike with
  | finished he hm =>
    exact ⟨c, c', e, e', m, m', hc, hc', hexecute, hexecute', bne_iff_ne.mp hplaces, he, hm⟩

/-!
# Natives that tell places
-/

/-- A new engine with the functions for embedding hosts. -/
def embeddingEngine : Machine :=
  .new ⟨.empty, .new Text.empty, .new false⟩ (Session.libraryOf true false)
    (.ofHost false false Text.empty 0)

/-- The program `return host_try(func() { return missing })`, with the name at some place. -/
def attemptedUnbound (s : Span) : List Stmt :=
  [.ret .zero (some (.call .zero (.var .zero "host_try")
    [.func .zero Text.empty [] (.mk .zero [.ret .zero (some (.var s "missing"))])]))]

/-- The value that a run ended with. -/
def Ending.value? : Ending → Option Value
  | .value v => some v
  | .failed .. => none

theorem Ending.eq_value {e : Ending} {v : Value} (h : v ∈ e.value?) : e = .value v := by
  cases e with
  | value w => exact congrArg Ending.value (Option.some.inj h)
  | failed => cases h

/-- A native that answers the text of an error gives away where the error is. -/
theorem attempt_tells_place :
    (attemptedUnbound .zero).map Stmt.unplaced = (attemptedUnbound (.onLine 2)).map Stmt.unplaced ∧
      ∃ c c' v v' m m', (Compiler.compile .absent false (attemptedUnbound .zero)).result = .ok c ∧
        (Compiler.compile .absent false (attemptedUnbound (.onLine 2))).result = .ok c' ∧
        embeddingEngine.execute 100 c.program = some (.value v, m) ∧
        embeddingEngine.execute 100 c'.program = some (.value v', m') ∧
        m.world.store.repr v ≠ m'.world.store.repr v' := by
  obtain ⟨c, c', hc, hc', hshown⟩ :
      ∃ c c', (Compiler.compile .absent false (attemptedUnbound .zero)).result = .ok c ∧
        (Compiler.compile .absent false (attemptedUnbound (.onLine 2))).result = .ok c' ∧
        (embeddingEngine.execute 100 c.program).any (fun r =>
          (embeddingEngine.execute 100 c'.program).any (fun r' =>
            r.1.value?.any fun v => r'.1.value?.any fun v' =>
              r.2.world.store.repr v != r'.2.world.store.repr v')) = true :=
    ⟨_, _, rfl, rfl, by decide +kernel⟩
  obtain ⟨⟨e, m⟩, hexecute, hshown⟩ := (Option.any_eq_true _ _).mp hshown
  obtain ⟨⟨e', m'⟩, hexecute', hshown⟩ := (Option.any_eq_true _ _).mp hshown
  obtain ⟨v, hv, hshown⟩ := (Option.any_eq_true _ _).mp hshown
  obtain ⟨v', hv', hshown⟩ := (Option.any_eq_true _ _).mp hshown
  obtain rfl := Ending.eq_value hv
  obtain rfl := Ending.eq_value hv'
  exact ⟨rfl, c, c', v, v', m, m', hc, hc', hexecute, hexecute', bne_iff_ne.mp hshown⟩

end ScriptEngine
