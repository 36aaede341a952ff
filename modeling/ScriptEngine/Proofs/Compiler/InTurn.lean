import ScriptEngine.Machine.Execute
import ScriptEngine.Proofs.Compiler.Openings

/-!
# Programs compiled in turn

A linker that compiles one program after another remembers that exports were opened. A program with an
export that comes after another such program is compiled without the statement that creates its
exports, and does not run as it would on its own; every other program is compiled as by a new linker.
-/

namespace ScriptEngine
namespace Compiler

/-- What compiling programs one after another with one linker gives. -/
def compileInTurn (linker : Linker) : Bool → List (List Stmt) → List Outcome
  | _, [] => []
  | exporting, body :: rest =>
    let outcome := compile linker exporting body
    outcome :: compileInTurn linker outcome.exporting rest

/-- Whether compiling a program of its own opens the exports. -/
def opensExports (linker : Linker) (body : List Stmt) : Bool :=
  (compile linker false body).exporting

/-- The statement that creates the exports is left out of the code. -/
structure Compiled.LacksOpening (c own : Compiled) : Prop where
  size : c.program.size + 6 = own.program.size
  problems : c.problems = own.problems

theorem Compiled.LacksOpening.ne {c own : Compiled} (h : c.LacksOpening own) : c ≠ own := by
  rintro rfl
  have hsize := h.size
  omega

section
variable {linker : Linker} {body : List Stmt}

/-- Open exports stay open. -/
theorem exporting_compile (linker : Linker) (exporting : Bool) (body : List Stmt) :
    (compile linker exporting body).exporting = (exporting || opensExports linker body) := by
  cases exporting with
  | false => rfl
  | true =>
    have hparts := opens_stmts linker Place.top body #[]
    unfold compile EStateM.run
    generalize stmts linker Place.top body ⟨#[], false⟩ = r at hparts
    generalize stmts linker Place.top body ⟨#[], true⟩ = r' at hparts
    cases hparts with
    | refused => rfl
    | closed => rfl
    | opened => rfl

/-- A program is refused, or compiled as if exports were closed, or lacks the opening, the last one
exactly if it has an export. -/
theorem compile_open (linker : Linker) (body : List Stmt) :
    (∃ e, (compile linker false body).result = .error e ∧ (compile linker true body).result = .error e) ∨
      (opensExports linker body = false ∧
        (compile linker true body).result = (compile linker false body).result) ∨
      (opensExports linker body = true ∧ ∃ own c, (compile linker false body).result = .ok own ∧
        (compile linker true body).result = .ok c ∧ c.LacksOpening own) := by
  have hparts := opens_stmts linker Place.top body #[]
  unfold opensExports compile EStateM.run
  generalize stmts linker Place.top body ⟨#[], false⟩ = r at hparts
  generalize stmts linker Place.top body ⟨#[], true⟩ = r' at hparts
  cases hparts with
  | refused => exact Or.inl ⟨_, rfl, rfl⟩
  | closed => exact Or.inr (Or.inl ⟨rfl, rfl⟩)
  | opened h =>
    refine Or.inr (Or.inr ⟨rfl, _, _, rfl, rfl, ?_, rfl⟩)
    simp only [Program.size, List.size_toArray]
    exact h.symm

/-- The linker that comes to a program has exports open exactly if one of the programs before it opened
them. -/
theorem compileInTurn_get {bodies : List (List Stmt)} {k : Nat} (exporting : Bool)
    (h : bodies[k]? = some body) :
    (compileInTurn linker exporting bodies)[k]? =
      some (compile linker (exporting || (bodies.take k).any (opensExports linker)) body) := by
  induction bodies generalizing k exporting with
  | nil => cases h
  | cons first rest ih =>
    cases k with
    | zero =>
      cases h
      rw [List.take_zero, List.any_nil, Bool.or_false]
      rfl
    | succ k =>
      rw [compileInTurn, List.getElem?_cons_succ, ih _ h, exporting_compile, List.take_succ_cons,
        List.any_cons, Bool.or_assoc]

end

/-- A program is compiled in turn as by a new linker exactly if it is refused, or has no export, or no
program before it has one; if it is not, its code lacks the statement that creates the exports. -/
theorem compiled_in_turn (linker : Linker) {bodies : List (List Stmt)} {k : Nat} {body : List Stmt}
    (hbody : bodies[k]? = some body) :
    ∃ o, (compileInTurn linker false bodies)[k]? = some o ∧
      (o.result = (compile linker false body).result ↔
        (∀ b ∈ bodies.take k, opensExports linker b = false) ∨ opensExports linker body = false ∨
          ∃ e, (compile linker false body).result = .error e) ∧
      (o.result = (compile linker false body).result ∨
        ∃ own c, (compile linker false body).result = .ok own ∧ o.result = .ok c ∧
          c.LacksOpening own) := by
  refine ⟨_, compileInTurn_get false hbody, ?_⟩
  rw [Bool.false_or]
  cases hbefore : (bodies.take k).any (opensExports linker) with
  | false =>
    have hnone : ∀ b ∈ bodies.take k, opensExports linker b = false := by
      intro b hb
      exact Bool.eq_false_iff.mpr (List.any_eq_false.mp hbefore b hb)
    exact ⟨⟨fun _ => Or.inl hnone, fun _ => rfl⟩, Or.inl rfl⟩
  | true =>
    have hsome : ¬ ∀ b ∈ bodies.take k, opensExports linker b = false := by
      intro hnone
      obtain ⟨b, hb, hopens⟩ := List.any_eq_true.mp hbefore
      rw [hnone b hb] at hopens
      cases hopens
    rcases compile_open linker body with ⟨e, hown, hopen⟩ | ⟨hcloses, hsame⟩ |
      ⟨hopens, own, c, hown, hopen, hlacks⟩
    · rw [hown, hopen]
      exact ⟨⟨fun _ => Or.inr (Or.inr ⟨e, rfl⟩), fun _ => rfl⟩, Or.inl rfl⟩
    · exact ⟨⟨fun _ => Or.inr (Or.inl hcloses), fun _ => hsame⟩, Or.inl hsame⟩
    · refine ⟨⟨fun heq => ?_, ?_⟩, Or.inr ⟨own, c, hown, hopen, hlacks⟩⟩
      · rw [hown, hopen] at heq
        exact absurd (Except.ok.inj heq) hlacks.ne
      · rintro (hnone | hcloses | ⟨e, he⟩)
        · exact absurd hnone hsome
        · rw [hopens] at hcloses
          cases hcloses
        · rw [hown] at he
          cases he

/-!
# Two programs with an export
-/

/-- The program `a = null; export a`. -/
def exportingNull : List Stmt :=
  [.expr .zero (.assign .zero (.var .zero "a") (.null .zero) .nearest), .exports .zero ["a"]]

theorem compiled_in_turn_exportingNull :
    ∃ o, (compileInTurn .modules false [exportingNull, exportingNull])[1]? = some o ∧
      ∃ own c, (compile .modules false exportingNull).result = .ok own ∧ o.result = .ok c ∧
        c.LacksOpening own := by
  obtain ⟨o, ho, hiff, hresult⟩ := compiled_in_turn .modules
    (show [exportingNull, exportingNull][1]? = some exportingNull from rfl)
  refine ⟨o, ho, hresult.resolve_left fun hsame => ?_⟩
  rcases hiff.mp hsame with hnone | hcloses | ⟨e, he⟩
  · cases hnone exportingNull List.mem_cons_self
  · cases hcloses
  · cases he

/-- An engine without natives. -/
def bareEngine : Machine :=
  .new ⟨.empty, .new Text.empty, .new false⟩ .empty (.ofHost false false Text.empty 0)

/-- Whether an execution ended with an unbound variable. -/
def unboundVariable : Ending → Bool
  | .failed problems _ => problems.any (·.code == "RE0001")
  | .value _ => false

/-- Two programs that export the same name, compiled with one linker and run one after the other: the
first one exports it, the second one fails and exports nothing. -/
theorem second_program_lacks_exports :
    ∃ first second, (compileInTurn .modules false [exportingNull, exportingNull]).map (·.result) =
        [.ok first, .ok second] ∧
      (compile .modules false exportingNull).result = .ok first ∧ second.program ≠ first.program ∧
      (bareEngine.execute 20 first.program).any (fun r => r.2.exports?.isSome &&
        (r.2.execute 20 second.program).any fun r => unboundVariable r.1 && r.2.exports?.isNone) =
          true :=
  ⟨_, _, rfl, rfl, by decide +kernel, by decide +kernel⟩

end Compiler
end ScriptEngine
