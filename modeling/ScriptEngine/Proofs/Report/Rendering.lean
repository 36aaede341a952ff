import ScriptEngine.Proofs.Execution.Equality
import ScriptEngine.Proofs.Text.Bytes
import ScriptEngine.Report

/-!
# Reports and traces as text

A report shows the calls of a run as their trace does, except for calls at a place in a file without a
name: there a report has one colon more. So a rendered report is its problems followed by the trace
if and only if no call is at such a place.
-/

namespace ScriptEngine

/-- The call is at a place in a file without a name. -/
def TraceFrame.nameless (f : TraceFrame) : Bool :=
  match f.span with
  | some s => s.file.isEmpty
  | none => false

namespace Report

/-- The line of a trace, with a colon in front of a place in a file without a name. -/
def colonLine (f : TraceFrame) : Text :=
  match f.span with
  | some s =>
    if s.file.isEmpty then "  in " ++ f.name ++ " at " ++ (":" ++ s.text) ++ "\n" else Trace.line f
  | none => Trace.line f

/-- Where a file has a name, reports and traces show a place alike; elsewhere a report has a colon in
front. -/
theorem place_eq (s : Span) : place s = if s.file.isEmpty then ":" ++ s.text else s.text := by
  apply Text.toList_inj
  unfold place Span.text
  dsimp only
  cases hfile : s.file.isEmpty with
  | true =>
    have hnone : s.file.toList = [] := Text.isEmpty_iff.mp hfile
    simp only [if_true, Text.toList_append, hnone, List.nil_append, List.append_assoc]
  | false =>
    simp only [Bool.false_eq_true, if_false, Text.toList_append, List.append_assoc]

theorem frameLine_eq (f : TraceFrame) : frameLine f = colonLine f := by
  unfold frameLine colonLine Trace.line
  cases f.span with
  | none => rfl
  | some s =>
    dsimp only
    rw [place_eq]
    split <;> rfl

theorem size_append (a b : Text) : (a ++ b).size = a.size + b.size := by
  rw [← Text.length_toList, Text.toList_append, List.length_append, Text.length_toList,
    Text.length_toList]

/-- A line has one byte more than in a trace if its file has no name. -/
theorem size_colonLine (f : TraceFrame) :
    (colonLine f).size = (Trace.line f).size + f.nameless.toNat := by
  unfold colonLine TraceFrame.nameless Trace.line
  cases f.span with
  | none => rfl
  | some s =>
    dsimp only
    cases s.file.isEmpty with
    | true =>
      simp only [if_true, size_append, Bool.toNat_true]
      have hcolon : (Text.ofString ":").size = 1 := rfl
      omega
    | false => rfl

theorem size_concat (parts : List Text) : (Text.concat parts).size = (parts.map Text.size).sum := by
  rw [← Text.length_toList, Text.toList_concat, List.length_flatMap]
  exact congrArg List.sum (List.map_congr_left fun t _ => Text.length_toList t)

/-- Lines that are nowhere shorter than others and together no longer are nowhere longer. -/
theorem nameless_eq_false {frames : List TraceFrame}
    (h : ((frames.map colonLine).map Text.size).sum = ((frames.map Trace.line).map Text.size).sum) :
    ∀ f ∈ frames, f.nameless = false := by
  induction frames with
  | nil => exact nofun
  | cons f rest ih =>
    have hle : ((rest.map Trace.line).map Text.size).sum ≤
        ((rest.map colonLine).map Text.size).sum := by
      rw [List.map_map, List.map_map]
      refine List.sum_le_sum fun g _ => ?_
      show (Trace.line g).size ≤ (colonLine g).size
      rw [size_colonLine]
      exact Nat.le_add_right ..
    simp only [List.map_cons, List.sum_cons, size_colonLine f] at h
    have hzero : f.nameless.toNat = 0 := by omega
    intro g hg
    rcases List.mem_cons.mp hg with rfl | hg
    · exact Bool.toNat_eq_zero.mp hzero
    · exact ih (by omega) g hg

theorem colonLine_eq_line {f : TraceFrame} (h : f.nameless = false) : colonLine f = Trace.line f := by
  unfold TraceFrame.nameless at h
  unfold colonLine
  cases hspan : f.span with
  | none => rfl
  | some s =>
    rw [hspan] at h
    exact if_neg (by rw [show s.file.isEmpty = false from h]; exact Bool.false_ne_true)

section
variable {id : Text} {created : Int} {p : Option Program} {problems : List Problem} {trace : Trace}

/-- A rendered report is the lines of its problems, then the lines of its trace with the colons. -/
theorem render_ofRun : (ofRun id created p problems trace).render =
    Text.concat (problems.map (problemLine .runtime)) ++
      Text.concat (trace.toList.reverse.map colonLine) := by
  rw [← List.map_congr_left fun f _ => frameLine_eq f]
  rfl

/-- What is added to the trace shows in the length. -/
theorem named_of_render_eq (h : (ofRun id created p problems trace).render =
    Text.concat (problems.map (problemLine .runtime)) ++ trace.text) :
    ∀ f ∈ trace.toList, f.nameless = false := by
  intro f hf
  have hsize := congrArg Text.size (render_ofRun.symm.trans h)
  rw [size_append, size_append, Nat.add_left_cancel_iff, Trace.text, size_concat, size_concat]
    at hsize
  exact nameless_eq_false hsize f (List.mem_reverse.mpr hf)

theorem render_of_named (h : ∀ f ∈ trace.toList, f.nameless = false) :
    (ofRun id created p problems trace).render =
      Text.concat (problems.map (problemLine .runtime)) ++ trace.text := by
  have hlines : trace.toList.reverse.map colonLine = trace.toList.reverse.map Trace.line :=
    List.map_congr_left fun f hf => colonLine_eq_line (h f (List.mem_reverse.mp hf))
  rw [render_ofRun, hlines, Trace.text]

end

/-- A rendered report shows its problems and then its calls, with a colon more than the trace where a
file has no name; it ends with exactly the trace if and only if no call is in such a file. -/
theorem render_ends_with_trace (id : Text) (created : Int) (p : Option Program)
    (problems : List Problem) (trace : Trace) :
    (ofRun id created p problems trace).render =
        Text.concat (problems.map (problemLine .runtime)) ++
          Text.concat (trace.toList.reverse.map colonLine) ∧
      ((ofRun id created p problems trace).render =
          Text.concat (problems.map (problemLine .runtime)) ++ trace.text ↔
        ∀ f ∈ trace.toList, f.nameless = false) :=
  ⟨render_ofRun, named_of_render_eq, render_of_named⟩

/-- The program `return missing` on the third line of a text without a name. -/
def missingName : List Stmt :=
  let span (column : Int) : Span := ⟨Text.empty, ⟨3, column⟩, ⟨3, 15⟩⟩
  [.ret (span 1) (some (.var (span 8) "missing"))]

/-- The run failed in a call whose source text has no name. -/
def failedNameless : Ending → Bool
  | .failed _ trace => trace.toList.any TraceFrame.nameless
  | .value _ => false

/-- The run ends with one problem in one call, which its report and its trace show differently. -/
theorem nameless_place_differs :
    ∃ c problems trace m, (Compiler.compile .absent false missingName).result = .ok c ∧
      standardEngine.execute 40 c.program = some (.failed problems trace, m) ∧
        (ofRun (zeros 16) 0 (some c.program) problems.toList trace).render ≠
          Text.concat (problems.toList.map (problemLine .runtime)) ++ trace.text := by
  obtain ⟨c, hcompiled, hrun⟩ :
      ∃ c, (Compiler.compile .absent false missingName).result = .ok c ∧
        (standardEngine.execute 40 c.program).any (fun r => failedNameless r.1) = true :=
    ⟨_, rfl, by decide⟩
  obtain ⟨⟨e, m⟩, hexecute, hnameless⟩ := (Option.any_eq_true _ _).mp hrun
  cases e with
  | value v => cases hnameless
  | failed problems trace =>
    refine ⟨c, problems, trace, m, hcompiled, hexecute, fun h => ?_⟩
    obtain ⟨f, hf, hname⟩ := List.any_eq_true.mp hnameless
    rw [named_of_render_eq h f hf] at hname
    cases hname

end Report
end ScriptEngine
