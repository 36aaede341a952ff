import ScriptEngine.Proofs.Execution.Compiled
import ScriptEngine.Proofs.Machine.Locations

/-!
# Problems of executions

Compiled code never runs into the engine's own checks: it does not underflow the operand stack, jump
out of the code, run past the end inside a call, exit a scope that is not open or find an operand of
a kind that an instruction cannot use. What is left of internal problems comes from natives, so none
is reported where natives are proper. Whatever an instruction or a native fails with, every problem that
the execution reports points into the source, and so does every entry of its call history that does not
stand for a native.
-/

namespace ScriptEngine

/-- The diagnostic code of internal problems. -/
def internalCode : Text :=
  "RE0000"

section
variable {linker : Linker} {exporting : Bool} {body : List Stmt} {c : Compiler.Compiled}
  {m m' : Machine} {known : NativeInfo → Prop} {fuel : Nat} {problems : Array Problem}
  {trace : Trace}

/-- Executing a compiled program with proper natives never reports an internal problem. -/
theorem no_internal_problem (hcompiled : (Compiler.compile linker exporting body).result = .ok c)
    (hsize : c.program.size ≤ Slot.limit) (hcalls : m.library.CallsOnly)
    (hproper : m.library.Proper known) (hfresh : m.world.store.closures = #[])
    (hclean : m.world.store.Clean known)
    (hbindings : m.library.bindings.All (m.world.store.Admits known))
    (hfails : m.execute fuel c.program = some (.failed problems trace, m')) :
    ∀ p ∈ problems, p.code ≠ internalCode := by
  obtain ⟨r, hr, hfloor, htidy, hcalm, -, -, hops, -, -, horder⟩ :=
    compiled_tidy True True False known hcompiled hsize hcalls (fun _ => hproper.tidy True) hfresh
      (fun _ => .of_clean hclean)
      fun _ => hbindings
  have htidy : r.tidy := htidy ▸ trivial
  have hcalm : r.calm := hcalm ▸ trivial
  obtain ⟨s, hs, hlast⟩ := Machine.execute_last hops hfails
  have hadvance := advance_inOrder hr (horder s hs) (Regime.not_leaves hfloor s)
  rcases hlast with ⟨v, m₁, -, hresult⟩ | ⟨f, m₁, hend, hresult⟩ | ⟨message, m₁, hend, -⟩
  · cases congrArg Prod.fst hresult
  · rw [hend] at hadvance
    obtain ⟨-, -, -, hknown⟩ := hadvance
    have hlocated : (m₁.locate f).Known := Fault.Known.locate (hknown htidy) m₁
    have hproblems : problems = (m₁.locate f).problems := by
      cases congrArg Prod.fst hresult
      rfl
    rw [hproblems]
    cases hfault : m₁.locate f with
    | located failure message problems trace =>
      rw [hfault] at hlocated
      exact hlocated.2
    | raised | foreign => exact fun p hp => absurd hp (Array.not_mem_empty p)
  · rw [hend] at hadvance
    exact absurd hcalm (hadvance htidy)

end

/-!
# A program that fails
-/

/-- The program `relay(null)`. -/
def relayNull : List Stmt :=
  [.expr .zero (.call .zero (.var .zero "relay") [.null .zero])]

/-- Whether an execution ended with exactly one problem. -/
def Ending.failsOnce : Ending → Bool
  | .failed problems _ => problems.size == 1
  | .value _ => false

theorem no_internal_problem_relayNull :
    ∃ c problems trace m',
      (Compiler.compile .absent false relayNull).result = .ok c ∧ c.problems = [] ∧
      relayEngine.execute 10 c.program = some (.failed problems trace, m') ∧ problems.size = 1 ∧
      ∀ p ∈ problems, p.code ≠ internalCode := by
  obtain ⟨c, hcompiled, hnone, hsize, hends⟩ :
      ∃ c, (Compiler.compile .absent false relayNull).result = .ok c ∧ c.problems = [] ∧
        c.program.size ≤ Slot.limit ∧
        (relayEngine.execute 10 c.program).any (fun r => r.1.failsOnce) = true :=
    ⟨_, rfl, rfl, by decide, by decide +kernel⟩
  obtain ⟨⟨ending, m'⟩, hexecute, hfails⟩ := (Option.any_eq_true _ _).mp hends
  cases ending with
  | value v => cases hfails
  | failed problems trace =>
    refine ⟨c, problems, trace, m', hcompiled, hnone, hexecute, beq_iff_eq.mp hfails, ?_⟩
    exact no_internal_problem hcompiled hsize Library.relaying_callsOnly Library.relaying_proper rfl
      (Store.clean_empty _) (Library.relaying_bindings _) hexecute

/-!
# Natives that are not proper

It is not enough that natives never fail with the internal class and never give back a marker: a
class that the engine does not know is reported under the internal code, and a marker can also come
out of a container.
-/

/-- The action does not end with a marker or a fault of the internal class, nor with a crash. -/
inductive Action.EndsOrdinarily : Action → Prop
  | done {v : Option Value} {w : World} (h : v ≠ some .empty) : EndsOrdinarily (.done v w)
  | fail {f : Failure} {message : Text} {w : World} (h : f ≠ .internal) :
    EndsOrdinarily (.fail (.raised f message) w)
  | foreign {message : Text} {w : World} : EndsOrdinarily (.fail (.foreign message) w)
  | invoke {callee : Value} {args : List Value} {w : World}
    {resume : Except Fault Value → World → Action}
    (h : ∀ o w', EndsOrdinarily (resume o w')) : EndsOrdinarily (.invoke callee args w resume)

/-- A library without markers whose natives only call and end ordinarily. -/
structure Library.Ordinary (l : Library) : Prop where
  calls : l.CallsOnly
  bindings : l.bindings.All (· ≠ .empty)
  ends : ∀ b ∈ l.behaviours, ∀ args w, (b args w).EndsOrdinarily

namespace Native

/-- Fails with a class that the engine does not know. -/
def raiseUnknown : Primitive :=
  ⟨"raise", some 0, fun _ w => .fail (.raised (.other 200) "unknown") w⟩

/-- Gives back a list with a marker in it. -/
def hole : Primitive :=
  ⟨"hole", some 0, fun _ w =>
    let (l, store) := w.store.newList #[.empty]
    .done (some (.list l)) { w with store := store }⟩

end Native

/-- An engine with these two natives. -/
def carelessEngine : Machine :=
  .new ⟨.empty, .new Text.empty, .new false⟩
    ((Library.empty.register Native.raiseUnknown).register Native.hole)
    (.ofHost false false Text.empty 0)

/-- The program `raise()`. -/
def raising : List Stmt :=
  [.expr .zero (.call .zero (.var .zero "raise") [])]

/-- The program `hole()[1][2] = null`. -/
def assigningInHole : List Stmt :=
  [.expr .zero (.assign .zero
    (.index .zero
      (.index .zero (.call .zero (.var .zero "hole") []) (.number .zero (Number.ofNat 1)))
      (.number .zero (Number.ofNat 2)))
    (.null .zero) .nearest)]

/-- Whether an execution ended with an internal problem. -/
def Ending.failsInternally : Ending → Bool
  | .failed problems _ => problems.any (·.code == internalCode)
  | .value _ => false

theorem careless_ordinary : carelessEngine.library.Ordinary where
  calls := by
    refine Library.callsOnly_of_behaviours fun b hb args w => ?_
    have hb : b ∈ #[Native.raiseUnknown.behaviour, Native.hole.behaviour] := hb
    rcases List.mem_cons.mp (List.mem_toArray.mp hb) with rfl | hb
    · exact .fail (.refl _)
    · rw [List.mem_singleton.mp hb]
      exact .done (.of_same rfl rfl)
  bindings := (Table.All.empty.insert _ (by decide)).insert _ (by decide)
  ends := by
    intro b hb args w
    have hb : b ∈ #[Native.raiseUnknown.behaviour, Native.hole.behaviour] := hb
    rcases List.mem_cons.mp (List.mem_toArray.mp hb) with rfl | hb
    · exact .fail (by decide)
    · rw [List.mem_singleton.mp hb]
      exact .done (by simp)

/-- Ordinary natives can make the engine report internal problems, in two ways. -/
theorem ordinary_natives_fail_internally :
    carelessEngine.library.Ordinary ∧ carelessEngine.world.store = .empty ∧
      ∀ body ∈ [raising, assigningInHole],
        ∃ c, (Compiler.compile .absent false body).result = .ok c ∧ c.problems = [] ∧
          (carelessEngine.execute 12 c.program).any (fun r => r.1.failsInternally) = true := by
  refine ⟨careless_ordinary, rfl, ?_⟩
  intro body hbody
  rcases List.mem_cons.mp hbody with rfl | hbody
  · exact ⟨_, rfl, rfl, by decide +kernel⟩
  · rw [List.mem_singleton.mp hbody]
    exact ⟨_, rfl, rfl, by decide +kernel⟩

/-!
# Problems have spans
-/

/-- The execution ends with a fault that an instruction or a native raised: it neither crashes nor
runs past the end of the program. -/
def Machine.EndsRaised (m : Machine) (fuel : Nat) (p : Program) : Prop :=
  ∃ f m', State.run fuel (m.start p) = some (.finished (.error f) m') ∧ m'.ip < p.size

/-- Compiled programs report only problems with spans, and call histories with spans at every entry
but those of natives that were called. -/
theorem raised_problems_have_spans {linker : Linker} {exporting : Bool} {body : List Stmt}
    {c : Compiler.Compiled} {m m' : Machine} {fuel : Nat} {problems : Array Problem} {trace : Trace}
    (hcompiled : (Compiler.compile linker exporting body).result = .ok c)
    (hsize : c.program.size ≤ Slot.limit) (hhonest : m.library.Honest)
    (hraised : m.EndsRaised fuel c.program)
    (hfails : m.execute fuel c.program = some (.failed problems trace, m')) :
    (∀ p ∈ problems, p.span.isSome = true) ∧
      ∀ t ∈ trace, t.span.isSome = true ∨
        ∃ info, m.CallsNative c.program info ∧ t.name = Key.display info.name := by
  obtain ⟨ops, ty, hops, -, -, hnodes⟩ := Compiler.compile_fits hcompiled hsize
  have hcovers := Compiler.compile_covers hcompiled hsize hops hnodes
  have hchart : (Chart.ofExecution m c.program).Valid := ⟨by
    show c.program.Covers (Op.ofProgram c.program).ops
    rw [hops]
    exact hcovers, hhonest⟩
  obtain ⟨f, m₁, hrun, hinside⟩ := hraised
  obtain ⟨s, hreaches, hlast, -⟩ := State.Leads.of_run hrun
  have hadvance := advance_located hchart
    (fun info callee args hmode hcallee => ⟨info, ⟨s, callee, args, hreaches, hmode, hcallee⟩, rfl⟩)
    (Machine.Reaches.located hchart hreaches)
  rw [hlast] at hadvance
  obtain ⟨hm, hf, hip⟩ := hadvance
  have hplaced := hm.locate (hip.resolve_right (Int.not_le.mpr hinside)) hf
  rw [Machine.execute_eq hops, hrun] at hfails
  obtain ⟨rfl, rfl⟩ : (m₁.locate f).problems = problems ∧ (m₁.locate f).trace = trace :=
    Ending.failed.inj (congrArg Prod.fst (Option.some.inj hfails))
  cases hlocated : m₁.locate f with
  | located failure message problems trace =>
    rw [hlocated] at hplaced
    refine ⟨hplaced.1, fun t ht => (hplaced.2 t ht).imp_right ?_⟩
    rintro ⟨_, ⟨info, hcalled, rfl⟩, hname⟩
    exact ⟨info, hcalled, hname⟩
  | raised | foreign =>
    exact ⟨fun p hp => absurd hp (Array.not_mem_empty p), fun t ht => absurd ht (Array.not_mem_empty t)⟩

/-!
# A function that fails inside a native
-/

/-- The program `relay(func() { return missing })`. -/
def relayedUnbound : List Stmt :=
  [.expr .zero (.call .zero (.var .zero "relay")
    [.func .zero Text.empty [] (.mk .zero [.ret .zero (some (.var .zero "missing"))])])]

/-- Whether an execution reports two problems and three entries of a history. -/
def Ending.failsInside : Ending → Bool
  | .failed problems trace => problems.size == 2 && trace.size == 3
  | .value _ => false

/-- Whether a run ended with a fault before a position. -/
def Advance.failsBefore (stop : Nat) : Advance → Bool
  | .finished (.error _) m => m.ip < stop
  | _ => false

theorem raised_problems_have_spans_relayedUnbound :
    ∃ c problems trace m',
      (Compiler.compile .absent false relayedUnbound).result = .ok c ∧ c.problems = [] ∧
      relayEngine.execute 30 c.program = some (.failed problems trace, m') ∧ problems.size = 2 ∧
      trace.size = 3 ∧ (∀ p ∈ problems, p.span.isSome = true) ∧
      ∀ t ∈ trace, t.span.isSome = true ∨
        ∃ info, relayEngine.CallsNative c.program info ∧ t.name = Key.display info.name := by
  obtain ⟨c, hcompiled, hnone, hsize, hends, hstops⟩ :
      ∃ c, (Compiler.compile .absent false relayedUnbound).result = .ok c ∧ c.problems = [] ∧
        c.program.size ≤ Slot.limit ∧
        (relayEngine.execute 30 c.program).any (fun r => r.1.failsInside) = true ∧
        (State.run 30 (relayEngine.start c.program)).any (·.failsBefore c.program.size) = true :=
    ⟨_, rfl, rfl, by decide, by decide +kernel, by decide +kernel⟩
  obtain ⟨⟨ending, m'⟩, hexecute, hfails⟩ := (Option.any_eq_true _ _).mp hends
  have hraised : relayEngine.EndsRaised 30 c.program := by
    obtain ⟨a, hrun, hbefore⟩ := (Option.any_eq_true _ _).mp hstops
    cases a with
    | finished o m₁ =>
      cases o with
      | ok v => cases hbefore
      | error f => exact ⟨f, m₁, hrun, of_decide_eq_true hbefore⟩
    | next | crashed => cases hbefore
  cases ending with
  | value v => cases hfails
  | failed problems trace =>
    obtain ⟨htwo, hthree⟩ := Bool.and_eq_true_iff.mp hfails
    exact ⟨c, problems, trace, m', hcompiled, hnone, hexecute, beq_iff_eq.mp htwo,
      beq_iff_eq.mp hthree, raised_problems_have_spans hcompiled hsize Library.relaying_honest hraised
        hexecute⟩

end ScriptEngine
