import ScriptEngine.Proofs.Plans.Exits
import ScriptEngine.Proofs.Plans.Nodes

/-!
# Debug tables of compiled programs

Looking up an instruction of a program that was compiled without problems gives the innermost node that
it was put down for. An expression statement is no node of its own and neither is a block that is the
body of another node, so what drops the value of a statement belongs to the node around the statement,
and to none at the end of a statement of the program itself.
-/

namespace ScriptEngine

namespace Plan

/-- Where a plan owns no instruction, all its instructions belong to nodes in it. -/
theorem isSome_of_mem_labels (a : Plan) (around : Option Around) (k : Nat) (h : a.owns = false) :
    ∀ label ∈ a.labels around k, label.isSome = true := by
  induction a generalizing around k with
  | ins code =>
    cases code with
    | nil => exact fun _ h => absurd h List.not_mem_nil
    | cons => cases h
  | seq a b iha ihb =>
    obtain ⟨ha, hb⟩ := Bool.or_eq_false_iff.mp h
    unfold labels
    rw [write, List.map_append, List.forall_mem_append]
    exact ⟨iha around k ha, ihb around _ hb⟩
  | node kind span a ih =>
    rw [labels_node]
    intro label hlabel
    obtain ⟨inner, -, rfl⟩ := List.mem_map.mp hlabel
    rw [Option.isSome_or]
    exact Bool.or_true _
  | skip | choose | scope | loop | func | exit => cases h

end Plan

/-!
# Nodes of statements
-/

/-- The statement does not implement a function for no type. -/
def Stmt.typed : Stmt → Bool
  | .impl _ _ type _ _ => !type.isEmpty
  | _ => true

theorem Expr.owns_plan (linker : Linker) (e : Expr) (h : e.whole = true) (opened : Bool) :
    ((e.plan linker) opened).1.owns = false := by
  cases e with
  | missing => cases h
  | number | text | boolean | null | var | list | dict | binary | unary | call | member | index |
    func => rfl
  | assign s target value scope =>
    rw [Expr.plan]
    show (Plan.assign s _ _ scope).owns = false
    unfold Plan.assign
    split <;> rfl

theorem Stmt.owns_plan (linker : Linker) (s : Stmt) (h : s.whole = true) (htyped : s.typed = true)
    (opened : Bool) : ((s.plan linker) opened).1.owns = false := by
  cases s with
  | missing => cases h
  | expr _ x => exact Expr.owns_plan linker x h opened
  | block | cond | whileLoop | forLoop | loop | each | select | typeDef | ret | leave | again => rfl
  | imports => cases linker <;> rfl
  | exports => cases linker <;> rfl
  | impl s method type params body =>
    rw [Stmt.plan, if_neg (by simpa [Stmt.typed] using htyped)]
    rfl

namespace Compiler

variable {linker : Linker} {place : Place} {p p' : Progress} {f : Fragment}

/-- A function implemented for no type is a problem. -/
theorem typed_of_clean {s : Stmt} (h : stmt linker place s p = .ok f p')
    (hclean : p'.problems.size = p.problems.size) : s.typed = true := by
  cases s with
  | impl s method type params body =>
    rw [stmt] at h
    split at h
    · obtain ⟨_, p₁, hreport, h⟩ := bind_ok h
      obtain ⟨-, rfl⟩ := pure_ok h
      cases hreport
      rw [Array.size_push] at hclean
      omega
    · next htype => simpa [Stmt.typed] using htype
  | _ => rfl

theorem all_typed_of_clean (hplace : place.Fits) {body : List Stmt} (hwhole : Stmt.allWhole body = true)
    (h : stmts linker place body p = .ok f p') (hclean : p'.problems.size = p.problems.size) :
    ∀ s ∈ body, s.whole = true ∧ s.typed = true := by
  induction body generalizing p p' f with
  | nil => exact fun _ h => absurd h List.not_mem_nil
  | cons s rest ih =>
    obtain ⟨hs, hrest⟩ := Bool.and_eq_true_iff.mp hwhole
    rw [stmts] at h
    obtain ⟨first, p₁, hfirst, h⟩ := bind_ok h
    obtain ⟨others, p₂, hothers, h⟩ := bind_ok h
    obtain ⟨-, rfl⟩ := pure_ok h
    -- neither part takes a problem back
    have hfollows : Gen.Follows False (stmt linker place s) (s.plan linker) (At False place) :=
      follows_stmt linker s hplace hs
    obtain ⟨_, _, hrun, -, hle, -⟩ := hfollows p
    rw [hfirst] at hrun
    cases hrun
    have hfollows : Gen.Follows False (stmts linker place rest) (Stmt.plans linker rest)
      (EndedAt False place) := follows_stmts linker rest hplace hrest
    obtain ⟨_, _, hrun, -, hle', -⟩ := hfollows p₁
    rw [hothers] at hrun
    cases hrun
    rw [List.forall_mem_cons]
    exact ⟨⟨hs, typed_of_clean hfirst (by omega)⟩, ih hrest hothers (by omega)⟩

end Compiler

theorem Stmt.plans_cons (linker : Linker) (s : Stmt) (rest : List Stmt) (opened : Bool) :
    ((Stmt.plans linker (s :: rest)) opened).1 =
      ((s.plan linker) opened).1.discard ++
        ((Stmt.plans linker rest) ((s.plan linker) opened).2).1 := by
  rw [Stmt.plans]
  rfl

/-- Of the instructions of statements only those that drop the value of one of them belong to no node. -/
theorem Stmt.unlabelled_plans (linker : Linker) {body : List Stmt}
    (h : ∀ s ∈ body, s.whole = true ∧ s.typed = true) (opened : Bool) (k i : Nat) (ins : Instruction)
    (hi : (((Stmt.plans linker body) opened).1.write none none k)[i]? = some (ins, none)) :
    ins = .bare .pop ∧ ∃ before s after, body = before ++ s :: after ∧
      i + 1 = ((Stmt.plans linker (before ++ [s])) opened).1.width none := by
  induction body generalizing opened k i with
  | nil => cases hi
  | cons s rest ih =>
    obtain ⟨⟨hwhole, htyped⟩, hrest⟩ := List.forall_mem_cons.mp h
    have howns := Stmt.owns_plan linker s hwhole htyped opened
    rw [Stmt.plans_cons] at hi
    obtain ⟨a, ha⟩ : ∃ a, a = ((s.plan linker) opened).1 := ⟨_, rfl⟩
    rw [← ha] at hi howns
    have hwidth : ∀ rest, ((Stmt.plans linker (s :: rest)) opened).1.width none =
        a.width none + 1 + ((Stmt.plans linker rest) ((s.plan linker) opened).2).1.width none := by
      intro rest
      rw [Stmt.plans_cons, ← ha]
      rfl
    have hlen : (a.write none none k ++ [(Instruction.bare .pop, none)]).length = a.width none + 1 := by
      rw [List.length_append, Plan.length_write, Option.map_none, List.length_singleton]
    replace hi : (a.write none none k ++ [(.bare .pop, none)] ++
        ((Stmt.plans linker rest) ((s.plan linker) opened).2).1.write none none
          (k + (a.width none + 1)))[i]? = some (ins, none) := hi
    by_cases hlt : i < a.width none + 1
    · rw [List.getElem?_append_left (hlen ▸ hlt)] at hi
      by_cases hinside : i < a.width none
      · -- the statement itself is a node
        rw [List.getElem?_append_left (by rwa [Plan.length_write])] at hi
        have hmem : none ∈ a.labels none k := List.mem_map.mpr ⟨_, List.mem_of_getElem? hi, rfl⟩
        cases Plan.isSome_of_mem_labels a none k howns none hmem
      · have hlast : i = a.width none := by omega
        rw [List.getElem?_append_right (by rw [Plan.length_write]; exact Nat.le_of_not_lt hinside),
          Plan.length_write, hlast, Option.map_none, Nat.sub_self] at hi
        refine ⟨(congrArg Prod.fst (Option.some.inj hi)).symm, [], s, rest, rfl, ?_⟩
        rw [List.nil_append, hwidth, hlast]
        rfl
    · have hle : a.width none + 1 ≤ i := Nat.le_of_not_lt hlt
      rw [List.getElem?_append_right (hlen ▸ hle), hlen] at hi
      obtain ⟨hpop, before, t, after, hbody, hplace⟩ := ih hrest _ _ _ hi
      refine ⟨hpop, s :: before, t, after, by rw [hbody]; rfl, ?_⟩
      rw [List.cons_append, hwidth, ← hplace]
      omega

/-!
# Lookup
-/

/-- The program is the plan written out. The ranges of its debug table lie inside of it and apart from
or strictly inside one another, inner ones in front, and looking up an instruction gives the innermost
node that it is put down for. -/
structure Program.NamesNodes (p : Program) (written : List Plan.Written) : Prop where
  code : p.code.toList = written.map Prod.fst
  within : ∀ e ∈ p.debug, 0 ≤ e.start ∧ e.start < e.stop ∧ e.stop ≤ p.size
  nested : p.debug.Pairwise fun a b =>
    a.stop ≤ b.start ∨ b.start ≤ a.start ∧ a.stop ≤ b.stop ∧ a.length < b.length
  names : ∀ (i : Nat) ins label, written[i]? = some (ins, label) →
    (p.debug.lookup i).map DebugEntry.label = label

theorem DebugEntry.start_eq_first {e : DebugEntry} {size : Nat} (hsize : size < 2 ^ 63)
    (hlow : 0 ≤ e.first) (hhigh : e.first ≤ size) : e.start = e.first := by
  unfold DebugEntry.start Number.wrapWord
  exact Int64.toInt_ofInt_of_le (by unfold first at hlow; omega) (by unfold first at hhigh; omega)

namespace Compiler

/-- In a program that was compiled without problems, and is no longer than a word can say, looking up an
instruction gives its innermost node, and gives nothing only for what ends a statement of the program. -/
theorem lookup_gives_innermost_node {linker : Linker} {exporting : Bool} {body : List Stmt} {c : Compiled}
    (hcompiled : (compile linker exporting body).result = .ok c) (hwhole : Stmt.allWhole body = true)
    (hclean : c.problems = []) (hsize : c.program.size < 2 ^ 63) :
    c.program.NamesNodes ((Stmt.plans linker body exporting).1.write none none 0) ∧
      ∀ i < c.program.size, c.program.debug.lookup i = none →
        c.program.code[i]? = some (.bare .pop) ∧ ∃ before s after, body = before ++ s :: after ∧
          i + 1 = (Stmt.plans linker (before ++ [s]) exporting).1.width none := by
  obtain ⟨f, p, hrun, rfl⟩ := compile_ok hcompiled
  obtain ⟨f', p', hrun', hbuild, -, -, hproper⟩ := builds_plan linker exporting body hwhole
  rw [hrun] at hrun'
  cases hrun'
  have hnone : p.problems = #[] := by simpa using hclean
  have hbecomes := Plan.becomes_build (Stmt.plans linker body exporting).1 none none 0
  have hnamed := Plan.named_build (Stmt.plans linker body exporting).1 none 0 (hproper hnone)
  rw [Option.map_none, hbuild] at hbecomes hnamed
  have hcode : f.code = ((Stmt.plans linker body exporting).1.write none none 0).map Prod.fst :=
    hbecomes.code
  have hstart : ∀ e ∈ f.debug, e.start = e.first := by
    intro e he
    obtain ⟨hlow, hlength, hstop⟩ := hnamed.within e he
    have hsize : f.length < 2 ^ 63 := hsize
    apply DebugEntry.start_eq_first hsize hlow
    unfold DebugEntry.first
    omega
  have hlookup := DebugTable.lookup_eq_find hnamed.nested hstart
  have hnames : ∀ (i : Nat) ins label,
      ((Stmt.plans linker body exporting).1.write none none 0)[i]? = some (ins, label) →
      (f.debug.lookup i).map DebugEntry.label = label := by
    intro i ins label hi
    rw [hlookup]
    apply hnamed.names i label
    unfold Plan.labels
    rw [List.getElem?_map, hi]
    rfl
  constructor
  · constructor
    · exact hcode
    · intro e he
      obtain ⟨hlow, hlength, hstop⟩ := hnamed.within e he
      rw [hstart e he]
      refine ⟨hlow, ?_, hstop⟩
      unfold DebugEntry.first
      omega
    · apply hnamed.nested.imp_of_mem
      intro a b ha hb hprecedes
      rw [hstart a ha, hstart b hb]
      exact hprecedes
    · exact hnames
  · intro i hi hnothing
    have hlt : i < ((Stmt.plans linker body exporting).1.write none none 0).length := by
      have hlen : f.code.length = _ := congrArg List.length hcode
      rw [List.length_map] at hlen
      exact hlen ▸ hi
    obtain ⟨⟨ins, label⟩, hwritten⟩ : ∃ w,
        ((Stmt.plans linker body exporting).1.write none none 0)[i]? = some w :=
      ⟨_, List.getElem?_eq_getElem hlt⟩
    have hlabel := hnames i ins label hwritten
    rw [hnothing] at hlabel
    cases hlabel
    have htyped := all_typed_of_clean Place.fits_top hwhole hrun (by rw [hnone])
    obtain ⟨rfl, hplace⟩ := Stmt.unlabelled_plans linker htyped exporting 0 i ins hwritten
    refine ⟨?_, hplace⟩
    show f.code.toArray[i]? = _
    rw [List.getElem?_toArray, hcode, List.getElem?_map, hwritten]
    rfl

theorem lookup_gives_innermost_node_leavingLoop :
    ∃ c, (compile .absent false leavingLoop).result = .ok c ∧ Stmt.allWhole leavingLoop = true ∧
      c.problems = [] ∧ c.program.size < 2 ^ 63 ∧
      c.program.NamesNodes ((Stmt.plans .absent leavingLoop false).1.write none none 0) ∧
      ∀ i < c.program.size, c.program.debug.lookup i = none →
        c.program.code[i]? = some (.bare .pop) ∧ ∃ before s after, leavingLoop = before ++ s :: after ∧
          i + 1 = (Stmt.plans .absent (before ++ [s]) false).1.width none := by
  obtain ⟨c, hcompiled, hclean, hsize⟩ : ∃ c, (compile .absent false leavingLoop).result = .ok c ∧
      c.problems = [] ∧ c.program.size = 22 := ⟨_, rfl, rfl, rfl⟩
  have hsize : c.program.size < 2 ^ 63 := by omega
  exact ⟨c, hcompiled, rfl, hclean, hsize, lookup_gives_innermost_node hcompiled rfl hclean hsize⟩

end Compiler
end ScriptEngine
