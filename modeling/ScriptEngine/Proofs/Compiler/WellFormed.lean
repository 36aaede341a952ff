import Mathlib.Logic.Relation
import ScriptEngine.Proofs.Plans.Drafts

/-!
# Problems and ill-formed trees

What the compiler reports is a matter of single nodes: the parameters of a function, the target of an
assignment, the type of a method, the fields and the name of a type, and imports and exports where there
are no modules. Main statement: a tree has a problem iff one of its nodes, anywhere in it, is ill-formed.
-/

namespace ScriptEngine

/-- A node of a syntax tree. -/
inductive SyntaxNode where
  | expr (e : Expr)
  | stmt (s : Stmt)

namespace SyntaxNode

/-!
# Trees
-/

def ofEntry : Entry → List SyntaxNode
  | .mk key value => [expr key, expr value]

/-- The guard of a parameter, if it has one. -/
def ofParam : Param → List SyntaxNode
  | .mk _ guard => guard.toList.map expr

def ofBlock : Block → List SyntaxNode
  | .mk _ body => body.map stmt

def ofBranch : Branch → List SyntaxNode
  | .mk cond body => expr cond :: ofBlock body

def ofCase : Case → List SyntaxNode
  | .mk values body => values.map expr ++ ofBlock body

/-- The nodes right below a node. -/
def children : SyntaxNode → List SyntaxNode
  | expr (.number ..) | expr (.text ..) | expr (.boolean ..) | expr (.null _) | expr (.var ..) => []
  | expr (.list _ items) => items.map expr
  | expr (.dict _ entries) => entries.flatMap ofEntry
  | expr (.binary _ _ left right) => [expr left, expr right]
  | expr (.unary _ _ operand) => [expr operand]
  | expr (.assign _ target value _) => [expr target, expr value]
  | expr (.call _ callee args) => expr callee :: args.map expr
  | expr (.member _ object _) => [expr object]
  | expr (.index _ object key) => [expr object, expr key]
  | expr (.func _ _ params body) => params.flatMap ofParam ++ ofBlock body
  | expr .missing => []
  | stmt (.expr _ x) => [expr x]
  | stmt (.block body) => ofBlock body
  | stmt (.cond _ branches otherwise) => branches.flatMap ofBranch ++ otherwise.toList.flatMap ofBlock
  | stmt (.whileLoop _ cond body) => expr cond :: ofBlock body
  | stmt (.forLoop _ init cond step body) =>
    init.toList.map stmt ++ cond.toList.map expr ++ step.toList.map stmt ++ ofBlock body
  | stmt (.loop _ count body) => expr count :: ofBlock body
  | stmt (.each _ _ source body) => expr source :: ofBlock body
  | stmt (.select _ subject cases otherwise) =>
    expr subject :: (cases.flatMap ofCase ++ otherwise.toList.flatMap ofBlock)
  | stmt (.impl _ _ _ params body) => params.flatMap ofParam ++ ofBlock body
  | stmt (.typeDef ..) | stmt (.leave _) | stmt (.again _) | stmt (.imports ..) | stmt (.exports ..) => []
  | stmt (.ret _ value) => value.toList.map expr
  | stmt .missing => []

/-- The second node is the first one or somewhere below it. -/
def Contains : SyntaxNode → SyntaxNode → Prop :=
  Relation.ReflTransGen fun n m => m ∈ n.children

/-- The node and all nodes below it have the property. -/
def Everywhere (P : SyntaxNode → Prop) (n : SyntaxNode) : Prop :=
  ∀ m, n.Contains m → P m

/-- All of these trees have the property everywhere. -/
def Throughout (P : SyntaxNode → Prop) (nodes : List SyntaxNode) : Prop :=
  ∀ n ∈ nodes, n.Everywhere P

/-!
# Well-formed nodes
-/

/-- What can stand on the left of an assignment. -/
def IsTarget : Expr → Prop
  | .var .. | .member .. | .index .. => True
  | _ => False

/-- The node itself is well-formed. -/
def Proper : SyntaxNode → Prop
  | expr (.func _ _ params _) => (params.map Param.name).Nodup
  | expr (.assign _ target _ _) => IsTarget target
  | stmt (.impl _ _ type params _) =>
    type.isEmpty = false ∧ (params.map Param.name).Nodup ∧ Text.ofString "self" ∉ params.map Param.name
  | stmt (.typeDef _ name fields) => fields.Nodup ∧ Key.isBuiltinType name = false
  | _ => True

/-- The node is an import or an export. -/
def IsLinked : SyntaxNode → Prop
  | stmt (.imports ..) | stmt (.exports ..) => True
  | _ => False

/-- The compiler has nothing to report about the node itself. -/
def Accepted (linker : Linker) (n : SyntaxNode) : Prop :=
  n.Proper ∧ (linker ≠ .modules → ¬ n.IsLinked)

section
variable {P : SyntaxNode → Prop} {n : SyntaxNode} {nodes nodes' : List SyntaxNode}

theorem everywhere_iff : n.Everywhere P ↔ P n ∧ Throughout P n.children := by
  constructor
  · exact fun h => ⟨h n .refl, fun c hc m hm => h m (hm.head hc)⟩
  · rintro ⟨hn, hchildren⟩ m hm
    rcases hm.cases_head with rfl | ⟨c, hc, hm⟩
    · exact hn
    · exact hchildren c hc m hm

theorem throughout_nil : Throughout P [] ↔ True :=
  iff_true_intro fun _ h => absurd h List.not_mem_nil

theorem throughout_cons : Throughout P (n :: nodes) ↔ n.Everywhere P ∧ Throughout P nodes :=
  List.forall_mem_cons

theorem throughout_append :
    Throughout P (nodes ++ nodes') ↔ Throughout P nodes ∧ Throughout P nodes' :=
  List.forall_mem_append

end
end SyntaxNode

namespace Compiler

open SyntaxNode

/-!
# Generators that judge
-/

section
variable {α β : Type} {sound sound' : Prop}

/-- The generator answers, takes no problem back, and reports none iff all is sound. -/
def Gen.Judges (sound : Prop) (x : Gen α) : Prop :=
  ∀ p, ∃ a p', x p = .ok a p' ∧ p.problems.size ≤ p'.problems.size ∧
    (p'.problems.size = p.problems.size ↔ sound)

theorem Gen.judges_pure (a : α) : Gen.Judges True (pure a) :=
  fun p => ⟨a, p, rfl, Nat.le_refl _, iff_true_intro rfl⟩

theorem Gen.Judges.congr {x : Gen α} (h : Gen.Judges sound x) (hiff : sound ↔ sound') :
    Gen.Judges sound' x := by
  intro p
  obtain ⟨a, p', ha, hle, hsound⟩ := h p
  exact ⟨a, p', ha, hle, hsound.trans hiff⟩

/-- Two generators in a row report nothing iff neither of them does. -/
theorem Gen.Judges.bind {x : Gen α} {k : α → Gen β} (hx : Gen.Judges sound x)
    (hk : ∀ a, Gen.Judges sound' (k a)) : Gen.Judges (sound ∧ sound') (x >>= k) := by
  intro p
  obtain ⟨a, p₁, ha, hle₁, hsound⟩ := hx p
  obtain ⟨b, p₂, hb, hle₂, hsound'⟩ := hk a p₁
  refine ⟨b, p₂, (bind_of_ok ha).trans hb, Nat.le_trans hle₁ hle₂, ?_⟩
  rw [← hsound, ← hsound']
  omega

theorem Gen.Judges.map {x : Gen α} (hx : Gen.Judges sound x) (g : α → β) :
    Gen.Judges sound (x >>= fun a => pure (g a)) :=
  (hx.bind fun a => Gen.judges_pure (g a)).congr (and_iff_left trivial)

theorem judges_report (code : String) (span : Span) (message : Text) :
    Gen.Judges False (report code span message) := by
  intro p
  refine ⟨(), _, rfl, ?_, ?_⟩
  · rw [Array.size_push]
    exact Nat.le_succ _
  · rw [Array.size_push]
    exact iff_false_intro (Nat.succ_ne_self _)

/-- A problem, whatever is generated besides. -/
theorem judges_reported {x : Gen α} (code : String) (span : Span) (message : Text)
    (hx : Gen.Judges sound x) : Gen.Judges False (report code span message >>= fun _ => x) :=
  ((judges_report code span message).bind fun _ => hx).congr (and_iff_left_of_imp False.elim)

end

theorem judges_checkDistinct (message : Text → Text) (code : String) (span : Span)
    (seen names : List Text) :
    Gen.Judges (names.Nodup ∧ ∀ name ∈ names, name ∉ seen) (checkDistinct message code span seen names) := by
  induction names generalizing seen with
  | nil => exact (Gen.judges_pure ()).congr (by simp)
  | cons name rest ih =>
    rw [checkDistinct]
    by_cases hseen : name ∈ seen
    · rw [if_pos (List.contains_iff_mem.mpr hseen)]
      refine (judges_reported code span _ (ih _)).congr (iff_of_false id ?_)
      exact fun h => h.2 name List.mem_cons_self hseen
    · rw [if_neg fun h => hseen (List.contains_iff_mem.mp h)]
      refine (ih (name :: seen)).congr ?_
      simp only [List.nodup_cons, List.mem_cons, not_or]
      grind

theorem judges_checkParams (span : Span) (selfType : Text) (names : List Text) :
    Gen.Judges (names.Nodup ∧ (selfType.isEmpty = false → Text.ofString "self" ∉ names))
      (checkParams span selfType names) := by
  refine (judges_checkDistinct _ "CE0001" span _ names).congr (and_congr_right fun _ => ?_)
  cases selfType.isEmpty with
  | true => simp
  | false => simp; grind

theorem judges_checkTypeDef (span : Span) (name : Text) (fields : List Text) :
    Gen.Judges (fields.Nodup ∧ Key.isBuiltinType name = false) (checkTypeDef span name fields) := by
  have hfields := judges_checkDistinct
    (fun f => "duplicate field " ++ f.quoted ++ " in type " ++ name) "CE0006" span [] fields
  unfold checkTypeDef
  cases Key.isBuiltinType name with
  | true => exact (judges_reported _ _ _ hfields).congr (by simp)
  | false => exact hfields.congr (by simp)

theorem judges_importStmt (linker : Linker) (span : Span) (path : Text) (names : List Text) :
    Gen.Judges (linker = .modules) (importStmt linker span path names) := by
  cases linker with
  | absent | closed =>
    exact (judges_reported _ _ _ (Gen.judges_pure _)).congr (iff_of_false id Linker.noConfusion)
  | modules => exact (Gen.judges_pure _).congr (iff_of_true trivial rfl)

theorem judges_exportStmt (linker : Linker) (span : Span) (names : List Text) :
    Gen.Judges (linker = .modules) (exportStmt linker span names) := by
  cases linker with
  | absent | closed =>
    exact (judges_reported _ _ _ (Gen.judges_pure _)).congr (iff_of_false id Linker.noConfusion)
  | modules => exact fun p => ⟨_, _, rfl, Nat.le_refl _, iff_of_true rfl rfl⟩

/-!
# The walk
-/

/-- Everything at and below these nodes is accepted. -/
abbrev Fine (linker : Linker) (nodes : List SyntaxNode) : Prop :=
  Throughout (Accepted linker) nodes

section
variable {α : Type} {linker : Linker} {n : SyntaxNode} {sound : Prop} {x : Gen α}

/-- A node is judged by itself and by what is below it. -/
theorem Gen.Judges.node (hx : Gen.Judges sound x)
    (h : sound ↔ Accepted linker n ∧ Fine linker n.children) :
    Gen.Judges (n.Everywhere (Accepted linker)) x :=
  hx.congr (h.trans everywhere_iff.symm)

/-- A node about which there is nothing to report is judged by what is below it. -/
theorem Gen.Judges.plain (hx : Gen.Judges sound x) (hproper : n.Proper) (hlinked : ¬ n.IsLinked)
    (h : sound ↔ Fine linker n.children) : Gen.Judges (n.Everywhere (Accepted linker)) x :=
  hx.node (h.trans (iff_and_self.mpr fun _ => ⟨hproper, fun _ => hlinked⟩))

theorem Gen.Judges.target {e : Expr} (htarget : IsTarget e)
    (hx : Gen.Judges ((SyntaxNode.expr e).Everywhere (Accepted linker)) x) :
    Gen.Judges (IsTarget e ∧ (SyntaxNode.expr e).Everywhere (Accepted linker)) x :=
  hx.congr (iff_and_self.mpr fun _ => htarget)

end

mutual

theorem judges_expr (linker : Linker) : ∀ e : Expr, e.whole = true →
    Gen.Judges ((SyntaxNode.expr e).Everywhere (Accepted linker)) (expr linker e)
  | .number .., _ | .text .., _ | .boolean .., _ | .null _, _ | .var .., _ => by
    rw [expr]
    exact (Gen.judges_pure _).plain trivial id throughout_nil.symm
  | .list s items, h => by
    rw [expr]
    exact ((judges_exprsBackward linker items h).map _).plain trivial id .rfl
  | .dict s entries, h => by
    rw [expr]
    exact ((judges_entriesBackward linker entries h).map _).plain trivial id .rfl
  | .binary s op left right, h => by
    rw [expr]
    obtain ⟨hleft, hright⟩ := Bool.and_eq_true_iff.mp h
    refine ((judges_expr linker left hleft).bind fun _ => (judges_expr linker right hright).map _).plain
      trivial id ?_
    simp only [Fine, children, throughout_cons, throughout_nil, and_true]
  | .unary s op operand, h => by
    rw [expr]
    refine ((judges_expr linker operand h).map _).plain trivial id ?_
    simp only [Fine, children, throughout_cons, throughout_nil, and_true]
  | .assign s target value scope, h => by
    rw [expr]
    obtain ⟨htarget, hvalue⟩ := Bool.and_eq_true_iff.mp h
    refine ((judges_expr linker value hvalue).bind fun _ =>
      (judges_assignTarget linker target htarget).map _).node ?_
    simp only [Fine, children, throughout_cons, throughout_nil, and_true, Accepted, Proper, IsLinked,
      not_false_eq_true, implies_true]
    exact ⟨fun h => ⟨h.2.1, h.2.2, h.1⟩, fun h => ⟨h.2.2, h.1, h.2.1⟩⟩
  | .call s callee args, h => by
    rw [expr]
    obtain ⟨hcallee, hargs⟩ := Bool.and_eq_true_iff.mp h
    refine ((judges_exprs linker args hargs).bind fun _ => (judges_expr linker callee hcallee).map _).plain
      trivial id ?_
    simp only [Fine, children, throughout_cons]
    exact and_comm
  | .member s object name, h => by
    rw [expr]
    refine ((judges_expr linker object h).map _).plain trivial id ?_
    simp only [Fine, children, throughout_cons, throughout_nil, and_true]
  | .index s object key, h => by
    rw [expr]
    obtain ⟨hobject, hkey⟩ := Bool.and_eq_true_iff.mp h
    refine ((judges_expr linker object hobject).bind fun _ => (judges_expr linker key hkey).map _).plain
      trivial id ?_
    simp only [Fine, children, throughout_cons, throughout_nil, and_true]
  | .func s name params body, h => by
    rw [expr]
    obtain ⟨hparams, hbody⟩ := Bool.and_eq_true_iff.mp h
    refine ((judges_checkParams s Text.empty _).bind fun _ =>
      (judges_paramsBackward linker params hparams).bind fun _ =>
        (judges_functionBody linker body hbody).map _).node ?_
    simp only [Fine, children, throughout_append, Accepted, Proper, IsLinked, not_false_eq_true,
      implies_true, and_true]
    refine and_congr_left fun _ => and_iff_left ?_
    exact fun hself => absurd hself (by decide)
  | .missing, h => by cases h

theorem judges_assignTarget (linker : Linker) : ∀ e : Expr, e.whole = true →
    Gen.Judges (IsTarget e ∧ (SyntaxNode.expr e).Everywhere (Accepted linker)) (assignTarget linker e)
  | .var s name, _ => by
    rw [assignTarget]
    exact .target trivial ((Gen.judges_pure _).plain trivial id throughout_nil.symm)
  | .member s object name, h => by
    rw [assignTarget]
    refine .target trivial (((judges_expr linker object h).map _).plain trivial id ?_)
    simp only [Fine, children, throughout_cons, throughout_nil, and_true]
  | .index s object key, h => by
    rw [assignTarget]
    obtain ⟨hobject, hkey⟩ := Bool.and_eq_true_iff.mp h
    refine .target trivial (((judges_expr linker object hobject).bind fun _ =>
      (judges_expr linker key hkey).map _).plain trivial id ?_)
    simp only [Fine, children, throughout_cons, throughout_nil, and_true]
  | .missing, h => by cases h
  | .number .., _ | .text .., _ | .boolean .., _ | .null _, _ | .list .., _ | .dict .., _
  | .binary .., _ | .unary .., _ | .assign .., _ | .call .., _ | .func .., _ => by
    rw [assignTarget]
    · exact (judges_reported _ _ _ (Gen.judges_pure _)).congr (iff_of_false id fun h => h.1)
    all_goals simp

theorem judges_exprs (linker : Linker) : ∀ es : List Expr, Expr.allWhole es = true →
    Gen.Judges (Fine linker (es.map .expr)) (exprs linker es)
  | [], _ => by
    rw [exprs]
    exact (Gen.judges_pure _).congr throughout_nil.symm
  | e :: rest, h => by
    rw [exprs]
    obtain ⟨he, hrest⟩ := Bool.and_eq_true_iff.mp h
    exact ((judges_expr linker e he).bind fun _ => (judges_exprs linker rest hrest).map _).congr
      throughout_cons.symm

theorem judges_exprsBackward (linker : Linker) : ∀ es : List Expr, Expr.allWhole es = true →
    Gen.Judges (Fine linker (es.map .expr)) (exprsBackward linker es)
  | [], _ => by
    rw [exprsBackward]
    exact (Gen.judges_pure _).congr throughout_nil.symm
  | e :: rest, h => by
    rw [exprsBackward]
    obtain ⟨he, hrest⟩ := Bool.and_eq_true_iff.mp h
    exact ((judges_exprsBackward linker rest hrest).bind fun _ => (judges_expr linker e he).map _).congr
      (and_comm.trans throughout_cons.symm)

theorem judges_entriesBackward (linker : Linker) : ∀ es : List Entry, Entry.allWhole es = true →
    Gen.Judges (Fine linker (es.flatMap ofEntry)) (entriesBackward linker es)
  | [], _ => by
    rw [entriesBackward]
    exact (Gen.judges_pure _).congr throughout_nil.symm
  | .mk key value :: rest, h => by
    rw [entriesBackward]
    obtain ⟨hkey, h⟩ := Bool.and_eq_true_iff.mp h
    obtain ⟨hvalue, hrest⟩ := Bool.and_eq_true_iff.mp h
    refine ((judges_entriesBackward linker rest hrest).bind fun _ =>
      (judges_expr linker value hvalue).bind fun _ => (judges_expr linker key hkey).map _).congr ?_
    simp only [Fine, List.flatMap_cons, ofEntry, throughout_append, throughout_cons, throughout_nil,
      and_true]
    exact and_comm.trans (and_congr_left fun _ => and_comm)

theorem judges_paramsBackward (linker : Linker) : ∀ ps : List Param, Param.allWhole ps = true →
    Gen.Judges (Fine linker (ps.flatMap ofParam)) (paramsBackward linker ps)
  | [], _ => by
    rw [paramsBackward]
    exact (Gen.judges_pure _).congr throughout_nil.symm
  | .mk name guard :: rest, h => by
    rw [paramsBackward]
    obtain ⟨hguard, hrest⟩ := Bool.and_eq_true_iff.mp h
    refine ((judges_paramsBackward linker rest hrest).bind fun _ =>
      (judges_guardExpr linker guard hguard).map _).congr ?_
    simp only [Fine, List.flatMap_cons, ofParam, throughout_append]
    exact and_comm

theorem judges_guardExpr (linker : Linker) : ∀ guard : Option Expr, Expr.wholeOption guard = true →
    Gen.Judges (Fine linker (guard.toList.map .expr)) (guardExpr linker guard)
  | none, _ => by
    rw [guardExpr]
    exact (Gen.judges_pure _).congr throughout_nil.symm
  | some e, h => by
    rw [guardExpr]
    exact (judges_expr linker e h).congr (throughout_cons.trans (and_iff_left (throughout_nil.mpr trivial))).symm

theorem judges_functionBody (linker : Linker) : ∀ b : Block, b.whole = true →
    Gen.Judges (Fine linker (ofBlock b)) (functionBody linker b)
  | .mk _ body, h => by
    rw [functionBody]
    refine ((judges_stmts linker body h).bind fun f => ?_).congr (and_iff_left trivial)
    cases body.getLast? <;> exact Gen.judges_pure _

theorem judges_stmts (linker : Linker) {place : Place} : ∀ body : List Stmt,
    Stmt.allWhole body = true → Gen.Judges (Fine linker (body.map .stmt)) (stmts linker place body)
  | [], _ => by
    rw [stmts]
    exact (Gen.judges_pure _).congr throughout_nil.symm
  | s :: rest, h => by
    rw [stmts]
    obtain ⟨hs, hrest⟩ := Bool.and_eq_true_iff.mp h
    exact ((judges_stmt linker s hs).bind fun _ => (judges_stmts linker rest hrest).map _).congr
      throughout_cons.symm

theorem judges_blockStmts (linker : Linker) {place : Place} : ∀ b : Block, b.whole = true →
    Gen.Judges (Fine linker (ofBlock b)) (blockStmts linker place b)
  | .mk _ body, h => by
    rw [blockStmts]
    exact judges_stmts linker body h

theorem judges_block (linker : Linker) {place : Place} : ∀ b : Block, b.whole = true →
    Gen.Judges (Fine linker (ofBlock b)) (block linker place b)
  | .mk _ body, h => by
    rw [block]
    exact (judges_stmts linker body h).map _

theorem judges_blockOption (linker : Linker) {place : Place} : ∀ b : Option Block,
    Block.wholeOption b = true →
    Gen.Judges (Fine linker (b.toList.flatMap ofBlock)) (blockOption linker place b)
  | none, _ => by
    rw [blockOption]
    exact (Gen.judges_pure _).congr throughout_nil.symm
  | some b, h => by
    rw [blockOption]
    refine ((judges_block linker b h).map _).congr ?_
    simp only [Fine, Option.toList_some, List.flatMap_singleton]

theorem judges_branches (linker : Linker) {place : Place} : ∀ bs : List Branch,
    Branch.allWhole bs = true →
    Gen.Judges (Fine linker (bs.flatMap ofBranch)) (branches linker place bs)
  | [], _ => by
    rw [branches]
    exact (Gen.judges_pure _).congr throughout_nil.symm
  | .mk cond body :: rest, h => by
    rw [branches]
    obtain ⟨hcond, h⟩ := Bool.and_eq_true_iff.mp h
    obtain ⟨hbody, hrest⟩ := Bool.and_eq_true_iff.mp h
    refine ((judges_expr linker cond hcond).bind fun _ => (judges_block linker body hbody).bind fun _ =>
      (judges_branches linker rest hrest).map _).congr ?_
    simp only [Fine, List.flatMap_cons, ofBranch, List.cons_append, throughout_cons, throughout_append]

theorem judges_cases (linker : Linker) {place : Place} : ∀ cs : List Case, Case.allWhole cs = true →
    Gen.Judges (Fine linker (cs.flatMap ofCase)) (cases linker place cs)
  | [], _ => by
    rw [cases]
    exact (Gen.judges_pure _).congr throughout_nil.symm
  | .mk values body :: rest, h => by
    rw [cases]
    obtain ⟨hvalues, h⟩ := Bool.and_eq_true_iff.mp h
    obtain ⟨hbody, hrest⟩ := Bool.and_eq_true_iff.mp h
    refine ((judges_alternatives linker values hvalues).bind fun _ =>
      (judges_block linker body hbody).bind fun _ => (judges_cases linker rest hrest).map _).congr ?_
    simp only [Fine, List.flatMap_cons, ofCase, throughout_append, and_assoc]

theorem judges_alternatives (linker : Linker) {before : Option Fragment} : ∀ es : List Expr,
    Expr.allWhole es = true → Gen.Judges (Fine linker (es.map .expr)) (alternatives linker before es)
  | [], _ => by
    rw [alternatives]
    exact (Gen.judges_pure _).congr throughout_nil.symm
  | e :: rest, h => by
    rw [alternatives]
    obtain ⟨he, hrest⟩ := Bool.and_eq_true_iff.mp h
    exact ((judges_expr linker e he).bind fun _ => judges_alternatives linker rest hrest).congr
      throughout_cons.symm

theorem judges_exprOption (linker : Linker) : ∀ e : Option Expr, Expr.wholeOption e = true →
    Gen.Judges (Fine linker (e.toList.map .expr)) (exprOption linker e)
  | none, _ => by
    rw [exprOption]
    exact (Gen.judges_pure _).congr throughout_nil.symm
  | some e, h => by
    rw [exprOption]
    exact ((judges_expr linker e h).map _).congr
      (throughout_cons.trans (and_iff_left (throughout_nil.mpr trivial))).symm

theorem judges_stmtOption (linker : Linker) {place : Place} : ∀ s : Option Stmt,
    Stmt.wholeOption s = true →
    Gen.Judges (Fine linker (s.toList.map .stmt)) (stmtOption linker place s)
  | none, _ => by
    rw [stmtOption]
    exact (Gen.judges_pure _).congr throughout_nil.symm
  | some s, h => by
    rw [stmtOption]
    exact ((judges_stmt linker s h).map _).congr
      (throughout_cons.trans (and_iff_left (throughout_nil.mpr trivial))).symm

theorem judges_stmt (linker : Linker) {place : Place} : ∀ s : Stmt, s.whole = true →
    Gen.Judges ((SyntaxNode.stmt s).Everywhere (Accepted linker)) (stmt linker place s)
  | .expr s x, h => by
    rw [stmt]
    refine (judges_expr linker x h).plain trivial id ?_
    simp only [Fine, children, throughout_cons, throughout_nil, and_true]
  | .block body, h => by
    rw [stmt]
    exact ((judges_block linker body h).map _).plain trivial id .rfl
  | .cond s bs otherwise, h => by
    rw [stmt]
    obtain ⟨hbranches, hother⟩ := Bool.and_eq_true_iff.mp h
    refine ((judges_branches linker bs hbranches).bind fun _ =>
      (judges_blockOption linker otherwise hother).map _).plain trivial id ?_
    simp only [Fine, children, throughout_append]
  | .whileLoop s cond body, h => by
    rw [stmt]
    obtain ⟨hcond, hbody⟩ := Bool.and_eq_true_iff.mp h
    exact ((judges_expr linker cond hcond).bind fun _ =>
      (judges_blockStmts linker body hbody).map _).plain trivial id throughout_cons.symm
  | .forLoop s init cond step body, h => by
    rw [stmt]
    obtain ⟨hinit, h⟩ := Bool.and_eq_true_iff.mp h
    obtain ⟨hcond, h⟩ := Bool.and_eq_true_iff.mp h
    obtain ⟨hstep, hbody⟩ := Bool.and_eq_true_iff.mp h
    refine ((judges_stmtOption linker init hinit).bind fun _ =>
      (judges_exprOption linker cond hcond).bind fun _ =>
        (judges_blockStmts linker body hbody).bind fun _ =>
          (judges_stmtOption linker step hstep).map _).plain trivial id ?_
    simp only [Fine, children, throughout_append, and_assoc]
    exact and_congr_right fun _ => and_congr_right fun _ => and_comm
  | .loop s count body, h => by
    rw [stmt]
    obtain ⟨hcount, hbody⟩ := Bool.and_eq_true_iff.mp h
    exact ((judges_expr linker count hcount).bind fun _ =>
      (judges_blockStmts linker body hbody).map _).plain trivial id throughout_cons.symm
  | .each s name source body, h => by
    rw [stmt]
    obtain ⟨hsource, hbody⟩ := Bool.and_eq_true_iff.mp h
    exact ((judges_expr linker source hsource).bind fun _ =>
      (judges_blockStmts linker body hbody).map _).plain trivial id throughout_cons.symm
  | .select s subject cs otherwise, h => by
    rw [stmt]
    obtain ⟨hsubject, h⟩ := Bool.and_eq_true_iff.mp h
    obtain ⟨hcases, hother⟩ := Bool.and_eq_true_iff.mp h
    rw [lacksValue_eq_false hcases]
    refine ((judges_expr linker subject hsubject).bind fun _ => (judges_cases linker cs hcases).bind fun _ =>
      (judges_blockOption linker otherwise hother).map _).plain trivial id ?_
    simp only [Fine, children, throughout_cons, throughout_append]
  | .impl s method type params body, h => by
    rw [stmt]
    obtain ⟨hparams, hbody⟩ := Bool.and_eq_true_iff.mp h
    cases htype : type.isEmpty with
    | true =>
      rw [if_pos rfl]
      refine (judges_reported "CE0002" s _ (Gen.judges_pure _)).node (iff_of_false id fun h => ?_)
      have hnamed := h.1.1.1
      rw [htype] at hnamed
      cases hnamed
    | false =>
      rw [if_neg Bool.false_ne_true]
      refine ((judges_checkParams s type _).bind fun _ =>
        (judges_paramsBackward linker params hparams).bind fun _ =>
          (judges_functionBody linker body hbody).map _).node ?_
      simp only [Fine, children, throughout_append, Accepted, Proper, IsLinked, htype, true_and,
        forall_true_left, not_false_eq_true, implies_true, and_true]
  | .typeDef s name fields, _ => by
    rw [stmt]
    refine ((judges_checkTypeDef s name fields).map _).node ?_
    simp only [Fine, children, throughout_nil, Accepted, Proper, IsLinked, not_false_eq_true,
      implies_true, and_true]
  | .ret s value, h => by
    rw [stmt]
    exact ((judges_exprOption linker value h).map _).plain trivial id .rfl
  | .leave s, _ | .again s, _ => by
    rw [stmt]
    exact (Gen.judges_pure _).plain trivial id throughout_nil.symm
  | .imports s path names, _ => by
    rw [stmt]
    refine (judges_importStmt linker s path names).node ?_
    simp only [Fine, children, throughout_nil, Accepted, Proper, IsLinked, true_and, and_true,
      not_true_eq_false, imp_false, not_not]
  | .exports s names, _ => by
    rw [stmt]
    refine (judges_exportStmt linker s names).node ?_
    simp only [Fine, children, throughout_nil, Accepted, Proper, IsLinked, true_and, and_true,
      not_true_eq_false, imp_false, not_not]
  | .missing, h => by cases h

end

/-- Compiling a tree that lacks no node succeeds. It has no problem iff all nodes of the tree, wherever
they stand, are well-formed and, where there are no modules, none of them is an import or an export. -/
theorem no_problem_iff_well_formed (linker : Linker) (exporting : Bool) (body : List Stmt)
    (h : Stmt.allWhole body = true) :
    ∃ c, (compile linker exporting body).result = .ok c ∧
      (c.problems = [] ↔
        (∀ s ∈ body, ∀ n, (SyntaxNode.stmt s).Contains n → n.Proper) ∧
        (linker ≠ .modules → ∀ s ∈ body, ∀ n, (SyntaxNode.stmt s).Contains n → ¬ n.IsLinked)) := by
  have hjudges : Gen.Judges _ (stmts linker Place.top body) := judges_stmts linker body h
  obtain ⟨f, p, hrun, -, hsound⟩ := hjudges ⟨#[], exporting⟩
  refine ⟨⟨⟨f.code.toArray, f.debug⟩, p.problems.toList⟩, ?_, ?_⟩
  · unfold compile
    rw [show (stmts linker Place.top body).run ⟨#[], exporting⟩ = .ok f p from hrun]
  · have hempty : p.problems.toList = [] ↔ p.problems.size = 0 := by
      rw [Array.toList_eq_nil_iff, Array.size_eq_zero_iff]
    rw [hempty]
    refine hsound.trans ?_
    unfold Fine Throughout Accepted
    rw [List.forall_mem_map]
    exact ⟨fun h => ⟨fun s hs n hn => (h s hs n hn).1, fun hl s hs n hn => (h s hs n hn).2 hl⟩,
      fun h s hs n hn => ⟨h.1 s hs n hn, fun hl => h.2 hl s hs n hn⟩⟩

/-- A function whose parameter is guarded by a function that has two parameters of one name. -/
def guardedTwice : List Stmt :=
  [.ret Span.zero (some (.func Span.zero "f"
    [.mk "x" (some (.func Span.zero "g" [.mk "a" none, .mk "a" none] (.mk Span.zero [])))]
    (.mk Span.zero [])))]

theorem no_problem_iff_well_formed_guardedTwice :
    Stmt.allWhole guardedTwice = true ∧
    ∃ c, (compile .modules false guardedTwice).result = .ok c ∧ c.problems ≠ [] := by
  have hwhole : Stmt.allWhole guardedTwice = true := rfl
  obtain ⟨c, hc, hiff⟩ := no_problem_iff_well_formed .modules false guardedTwice hwhole
  refine ⟨hwhole, c, hc, fun hnil => ?_⟩
  have hguard := (hiff.mp hnil).1 _ List.mem_cons_self _
    (.head List.mem_cons_self (.head List.mem_cons_self .refl))
  have htwice : ¬ [Text.ofString "a", Text.ofString "a"].Nodup := by decide
  exact htwice hguard

end Compiler
end ScriptEngine
