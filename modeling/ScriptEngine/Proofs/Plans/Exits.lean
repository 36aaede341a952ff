import ScriptEngine.Proofs.Plans.Drafts
import ScriptEngine.Proofs.Plans.Sites

/-!
# Statements that leave loops

The statements in a tree that leave a loop or go on with its next round, and how many scopes are open
between each of them and the loop around it, are those at the sites of its plan. Trees for which no code
is generated, the bodies of functions that are implemented for no type and what cannot be assigned to,
are left out.
-/

namespace ScriptEngine

/-- A statement that leaves a loop or goes on with its next round. If it stands in the body of a loop of
its own function, so many scopes are open inside of that of the innermost such loop. -/
structure Exit where
  again : Bool
  scopes : Option Nat
  deriving DecidableEq

/-!
# Exits of trees
-/

mutual

/-- The exits in the functions of an expression, in the order of the code. -/
def Expr.exits : Expr → List Exit
  | .number .. | .text .. | .boolean .. | .null _ | .var .. | .missing => []
  | .list _ items => Expr.exitsBackward items
  | .dict _ entries => Entry.exitsBackward entries
  | .binary _ _ left right => left.exits ++ right.exits
  | .unary _ _ operand => operand.exits
  | .assign _ target value _ => value.exits ++ target.exitsTarget
  | .call _ callee args => Expr.allExits args ++ callee.exits
  | .member _ object _ => object.exits
  | .index _ object key => object.exits ++ key.exits
  | .func _ _ params body => Param.exitsBackward params ++ body.exits none

/-- The exits in what can be assigned to. -/
def Expr.exitsTarget : Expr → List Exit
  | .member _ object _ => object.exits
  | .index _ object key => object.exits ++ key.exits
  | _ => []

def Expr.allExits : List Expr → List Exit
  | [] => []
  | e :: rest => e.exits ++ Expr.allExits rest

def Expr.exitsBackward : List Expr → List Exit
  | [] => []
  | e :: rest => Expr.exitsBackward rest ++ e.exits

def Entry.exitsBackward : List Entry → List Exit
  | [] => []
  | .mk key value :: rest => Entry.exitsBackward rest ++ value.exits ++ key.exits

def Param.exitsBackward : List Param → List Exit
  | [] => []
  | .mk _ guard :: rest => Param.exitsBackward rest ++ Expr.exitsOption guard

def Expr.exitsOption : Option Expr → List Exit
  | none => []
  | some e => e.exits

/-- The exits in the statements of a block, where so many scopes are open. -/
def Block.exits (scopes : Option Nat) : Block → List Exit
  | .mk _ body => Stmt.allExits scopes body

def Block.exitsOption (scopes : Option Nat) : Option Block → List Exit
  | none => []
  | some b => b.exits scopes

def Branch.exits (scopes : Option Nat) : List Branch → List Exit
  | [] => []
  | .mk cond body :: rest => cond.exits ++ body.exits scopes ++ Branch.exits scopes rest

def Case.exits (scopes : Option Nat) : List Case → List Exit
  | [] => []
  | .mk values body :: rest => Expr.allExits values ++ body.exits scopes ++ Case.exits scopes rest

/-- The exits in a statement. A block opens a scope, and so does a selection around its cases. A loop
opens one around its body, which is a block, and around what it begins and goes on with. -/
def Stmt.exits (scopes : Option Nat) : Stmt → List Exit
  | .expr _ x => x.exits
  | .block body => body.exits (scopes.map (· + 1))
  | .cond _ branches otherwise =>
    Branch.exits (scopes.map (· + 1)) branches ++ Block.exitsOption (scopes.map (· + 1)) otherwise
  | .whileLoop _ cond body => cond.exits ++ body.exits (some 1)
  | .forLoop _ init cond step body =>
    Stmt.exitsOption (scopes.map (· + 1)) init ++ Expr.exitsOption cond ++ body.exits (some 1) ++
      Stmt.exitsOption (scopes.map (· + 1)) step
  | .loop _ count body => count.exits ++ body.exits (some 1)
  | .each _ _ source body => source.exits ++ body.exits (some 1)
  | .select _ subject cases otherwise =>
    subject.exits ++ Case.exits (scopes.map (· + 2)) cases ++
      Block.exitsOption (scopes.map (· + 2)) otherwise
  | .impl _ _ type params body =>
    if type.isEmpty then [] else Param.exitsBackward params ++ body.exits none
  | .ret _ value => Expr.exitsOption value
  | .leave _ => [⟨false, scopes⟩]
  | .again _ => [⟨true, scopes⟩]
  | .typeDef .. | .imports .. | .exports .. | .missing => []

def Stmt.exitsOption (scopes : Option Nat) : Option Stmt → List Exit
  | none => []
  | some s => s.exits scopes

def Stmt.allExits (scopes : Option Nat) : List Stmt → List Exit
  | [] => []
  | s :: rest => s.exits scopes ++ Stmt.allExits scopes rest

end

namespace Plan

/-!
# Exits of plans
-/

/-- The exits in a plan, where so many scopes are open. -/
def exits (scopes : Option Nat) : Plan → List Exit
  | ins _ => []
  | seq a b | choose a b => a.exits scopes ++ b.exits scopes
  | node _ _ a | skip _ a => a.exits scopes
  | scope a => a.exits (scopes.map (· + 1))
  | loop init tested cond body step =>
    let inside := scopes.map (· + 1)
    init.exits inside ++ (if tested then cond.exits inside else []) ++ body.exits (some 0) ++
      step.exits inside
  | func a => a.exits none
  | exit again => [⟨again, scopes⟩]

/-- The exit at a site. -/
def Site.exit (s : Site) : Exit :=
  ⟨s.again, s.around.map Around.scopes⟩

theorem map_sites (a : Plan) (around : Option Around) (k : Nat) :
    (a.sites around k).map Site.exit = a.exits (around.map Around.scopes) := by
  induction a generalizing around k with
  | ins code => rfl
  | seq a b iha ihb => rw [sites, List.map_append, iha, ihb, exits]
  | node kind span a ih => exact ih around k
  | skip op a ih => exact ih around (k + 1)
  | choose yes no ihyes ihno => rw [sites, List.map_append, ihyes, ihno, exits]
  | scope a ih => rw [sites, ih, scopes_deeper, exits]
  | loop init tested cond body step ihinit ihcond ihbody ihstep =>
    rw [sites, exits, ← scopes_deeper]
    simp only [List.map_append, ihinit, ihbody, ihstep]
    cases tested with
    | false => rfl
    | true => simp only [if_true, ihcond, Option.map_some]
  | func a ih => exact ih none (k + 1)
  | exit again => rfl

/-!
# Exits of constructs
-/

variable {n : Option Nat}

@[simp] theorem exits_append (a b : Plan) : (a ++ b).exits n = a.exits n ++ b.exits n := rfl

@[simp] theorem exits_emit (a : Plan) (code : List Instruction) : (a.emit code).exits n = a.exits n :=
  List.append_nil _

@[simp] theorem exits_empty : empty.exits n = [] := rfl

attribute [simp] exits

@[simp] theorem exits_discard (a : Plan) : a.discard.exits n = a.exits n :=
  exits_emit _ _

@[simp] theorem exits_binary (span : Span) (op : Text) (a b : Plan) :
    (binary span op a b).exits n = a.exits n ++ b.exits n := by
  unfold binary
  split
  · simp
  · split <;> simp

@[simp] theorem exits_unary (span : Span) (op : Text) (a : Plan) : (unary span op a).exits n = a.exits n :=
  exits_emit _ _

@[simp] theorem exits_list (span : Span) (count : Nat) (a : Plan) :
    (list span count a).exits n = a.exits n :=
  exits_emit _ _

@[simp] theorem exits_dict (span : Span) (count : Nat) (a : Plan) :
    (dict span count a).exits n = a.exits n :=
  exits_emit _ _

@[simp] theorem exits_call (span : Span) (count : Nat) (a b : Plan) :
    (call span count a b).exits n = a.exits n ++ b.exits n := by
  simp [call]

@[simp] theorem exits_member (span : Span) (a : Plan) (name : Text) :
    (member span a name).exits n = a.exits n :=
  exits_emit _ _

@[simp] theorem exits_index (span : Span) (a b : Plan) :
    (index span a b).exits n = a.exits n ++ b.exits n := by
  simp [index]

theorem exits_assign (span : Span) (a : Plan) (target : Option Plan) (scope : Scope) :
    (assign span a target scope).exits n = a.exits n ++ target.elim [] (exits n) := by
  cases target with
  | none => exact (List.append_nil _).symm
  | some t => exact exits_emit _ _

@[simp] theorem exits_assignStmt (span : Span) (name : Text) (a : Plan) (scope : Scope) :
    (assignStmt span name a scope).exits n = a.exits n := by
  simp [assignStmt, exits_assign, varTarget]

@[simp] theorem exits_function (a : Plan) (count : Nat) (selfType : Text) (b : Plan) :
    (function a count selfType b).exits n = a.exits n ++ b.exits none := by
  simp [function]

theorem exits_arms (as : List (Plan × Plan)) (other : Option Plan) :
    (arms as other).exits n =
      as.flatMap (fun arm => arm.1.exits n ++ arm.2.exits n) ++ other.elim [] (exits n) := by
  induction as with
  | nil => cases other <;> rfl
  | cons arm rest ih =>
    have hchoose : (arm.1 ++ choose arm.2 (arms rest other)).exits n =
        (arm :: rest).flatMap (fun arm => arm.1.exits n ++ arm.2.exits n) ++ other.elim [] (exits n) := by
      rw [exits_append, exits, ih, List.flatMap_cons]
      simp only [List.append_assoc]
    cases rest with
    | nil =>
      cases other with
      | none => simp [arms]
      | some b => exact hchoose
    | cons next rest => exact hchoose

@[simp] theorem exits_chain (as : List (Plan × Plan)) (other : Option Plan) :
    (chain as other).exits n =
      as.flatMap (fun arm => arm.1.exits n ++ arm.2.exits n) ++ other.elim [] (exits n) :=
  (exits_emit _ _).trans (exits_arms as other)

@[simp] theorem exits_nextStep (span : Span) (scope : Scope) : (nextStep span scope).exits n = [] := by
  simp [nextStep, var]

@[simp] theorem exits_stepPart (span : Span) (i : Nat) : (stepPart span i).exits n = [] := by
  simp [stepPart, var, number]

@[simp] theorem exits_eachLoop (span : Span) (name : Text) (a b : Plan) :
    (eachLoop span name a b).exits n = a.exits (n.map (· + 1)) ++ b.exits (some 1) := by
  simp [eachLoop]

@[simp] theorem exits_repeatLoop (span : Span) (a b : Plan) :
    (repeatLoop span a b).exits n = a.exits (n.map (· + 1)) ++ b.exits (some 0) := by
  simp [repeatLoop]

@[simp] theorem exits_selectChain (span : Span) (a : Plan) (as : List (Plan × Plan)) (other : Option Plan) :
    (selectChain span a as other).exits n =
      a.exits (n.map (· + 1)) ++
        (as.flatMap (fun arm => arm.1.exits (n.map (· + 1)) ++ arm.2.exits (n.map (· + 1))) ++
          other.elim [] (exits (n.map (· + 1)))) := by
  cases as with
  | nil => cases other <;> simp [selectChain]
  | cons arm rest => simp [selectChain]

@[simp] theorem exits_caseTest (span : Span) (a : Plan) : (caseTest span a).exits n = a.exits n := by
  simp [caseTest, var]

/-- Statements for names without exits have none. -/
theorem exits_foldNames {stmt : Text → Plan} (h : ∀ name, (stmt name).exits n = []) (names : List Text)
    (a : Plan) : (names.foldl (fun acc name => acc ++ stmt name) a).exits n = a.exits n := by
  induction names generalizing a with
  | nil => rfl
  | cons name rest ih => rw [List.foldl_cons, ih, exits_append, h, List.append_nil]

theorem exits_importStmt (linker : Linker) (span : Span) (path : Text) (names : List Text) :
    (importStmt linker span path names).exits n = [] := by
  have hcode : (importCode span path names).exits n = [] := by
    unfold importCode
    dsimp only
    split
    · simp [var]
    · exact exits_foldNames (fun name => by simp [var]) names empty
  cases linker <;> simp [importStmt, linked, hcode]

theorem exits_exportCode (span : Span) (first : Bool) (names : List Text) :
    (exportCode span first names).exits n = [] := by
  unfold exportCode
  refine (exits_foldNames (fun name => by simp [exits_assign, var]) names _).trans ?_
  cases first <;> simp

end Plan

/-!
# Plans have the exits of their trees
-/

/-- Whether exports have been opened or not, the draft gives something with the property. -/
structure Draft.Gives {α : Type} (d : Draft α) (R : α → Prop) : Prop where
  holds : ∀ opened, R (d opened).1

section
variable {α β : Type} {R : α → Prop} {S : β → Prop}

theorem Draft.gives_pure {a : α} (h : R a) : Draft.Gives (pure a) R :=
  ⟨fun _ => h⟩

theorem Draft.Gives.bind {d : Draft α} {k : α → Draft β} (hd : Draft.Gives d R)
    (hk : ∀ a, R a → Draft.Gives (k a) S) : Draft.Gives (d >>= k) S :=
  ⟨fun opened => (hk (d opened).1 (hd.holds opened)).holds (d opened).2⟩

end

/-- The plan has these exits wherever it stands. -/
def Plan.Has (exits : List Exit) (a : Plan) : Prop :=
  ∀ n, a.exits n = exits

mutual

theorem Expr.exits_plan (linker : Linker) : ∀ e : Expr, Draft.Gives (e.plan linker) (Plan.Has e.exits)
  | .number s x => Draft.gives_pure fun _ => rfl
  | .text s t => Draft.gives_pure fun _ => rfl
  | .boolean s b => Draft.gives_pure fun _ => rfl
  | .null s => Draft.gives_pure fun _ => rfl
  | .var s name => Draft.gives_pure fun _ => rfl
  | .list s items => by
    rw [Expr.plan, Expr.exits]
    apply (Expr.exits_plansBackward linker items).bind
    intro a ha
    exact Draft.gives_pure fun n => (Plan.exits_list ..).trans (ha n)
  | .dict s entries => by
    rw [Expr.plan, Expr.exits]
    apply (Entry.exits_plansBackward linker entries).bind
    intro a ha
    exact Draft.gives_pure fun n => (Plan.exits_dict ..).trans (ha n)
  | .binary s op left right => by
    rw [Expr.plan, Expr.exits]
    apply (Expr.exits_plan linker left).bind
    intro a ha
    apply (Expr.exits_plan linker right).bind
    intro b hb
    exact Draft.gives_pure fun n => by rw [Plan.exits_binary, ha, hb]
  | .unary s op operand => by
    rw [Expr.plan, Expr.exits]
    apply (Expr.exits_plan linker operand).bind
    intro a ha
    exact Draft.gives_pure fun n => (Plan.exits_unary ..).trans (ha n)
  | .assign s target value scope => by
    rw [Expr.plan, Expr.exits]
    apply (Expr.exits_plan linker value).bind
    intro a ha
    apply (Expr.exits_planTarget linker target).bind
    intro t ht
    exact Draft.gives_pure fun n => by rw [Plan.exits_assign, ha, ht]
  | .call s callee args => by
    rw [Expr.plan, Expr.exits]
    apply (Expr.exits_plans linker args).bind
    intro a ha
    apply (Expr.exits_plan linker callee).bind
    intro b hb
    exact Draft.gives_pure fun n => by rw [Plan.exits_call, ha, hb]
  | .member s object name => by
    rw [Expr.plan, Expr.exits]
    apply (Expr.exits_plan linker object).bind
    intro a ha
    exact Draft.gives_pure fun n => (Plan.exits_member ..).trans (ha n)
  | .index s object key => by
    rw [Expr.plan, Expr.exits]
    apply (Expr.exits_plan linker object).bind
    intro a ha
    apply (Expr.exits_plan linker key).bind
    intro b hb
    exact Draft.gives_pure fun n => by rw [Plan.exits_index, ha, hb]
  | .func s name params body => by
    rw [Expr.plan, Expr.exits]
    apply (Param.exits_plansBackward linker params).bind
    intro a ha
    apply (Block.exits_planBody linker body).bind
    intro b hb
    apply Draft.gives_pure
    intro n
    rw [← ha n, ← hb]
    split <;> simp
  | .missing => Draft.gives_pure fun _ => rfl

theorem Expr.exits_planTarget (linker : Linker) : ∀ e : Expr,
    Draft.Gives (e.planTarget linker) fun t => ∀ n, t.elim [] (Plan.exits n) = e.exitsTarget
  | .var s name => Draft.gives_pure fun _ => rfl
  | .member s object name => by
    rw [Expr.planTarget, Expr.exitsTarget]
    apply (Expr.exits_plan linker object).bind
    intro a ha
    exact Draft.gives_pure fun n => (Plan.exits_emit _ _).trans (ha n)
  | .index s object key => by
    rw [Expr.planTarget, Expr.exitsTarget]
    apply (Expr.exits_plan linker object).bind
    intro a ha
    apply (Expr.exits_plan linker key).bind
    intro b hb
    exact Draft.gives_pure fun n => by rw [Option.elim_some, Plan.exits_append, ha, hb]
  | .number .. | .text .. | .boolean .. | .null _ | .list .. | .dict .. | .binary .. | .unary .. |
    .assign .. | .call .. | .func .. | .missing => Draft.gives_pure fun _ => rfl

theorem Expr.exits_plans (linker : Linker) : ∀ es : List Expr,
    Draft.Gives (Expr.plans linker es) (Plan.Has (Expr.allExits es))
  | [] => Draft.gives_pure fun _ => rfl
  | e :: rest => by
    rw [Expr.plans, Expr.allExits]
    apply (Expr.exits_plan linker e).bind
    intro a ha
    apply (Expr.exits_plans linker rest).bind
    intro b hb
    exact Draft.gives_pure fun n => by rw [Plan.exits_append, ha, hb]

theorem Expr.exits_plansBackward (linker : Linker) : ∀ es : List Expr,
    Draft.Gives (Expr.plansBackward linker es) (Plan.Has (Expr.exitsBackward es))
  | [] => Draft.gives_pure fun _ => rfl
  | e :: rest => by
    rw [Expr.plansBackward, Expr.exitsBackward]
    apply (Expr.exits_plansBackward linker rest).bind
    intro a ha
    apply (Expr.exits_plan linker e).bind
    intro b hb
    exact Draft.gives_pure fun n => by rw [Plan.exits_append, ha, hb]

theorem Entry.exits_plansBackward (linker : Linker) : ∀ es : List Entry,
    Draft.Gives (Entry.plansBackward linker es) (Plan.Has (Entry.exitsBackward es))
  | [] => Draft.gives_pure fun _ => rfl
  | .mk key value :: rest => by
    rw [Entry.plansBackward, Entry.exitsBackward]
    apply (Entry.exits_plansBackward linker rest).bind
    intro a ha
    apply (Expr.exits_plan linker value).bind
    intro b hb
    apply (Expr.exits_plan linker key).bind
    intro c hc
    exact Draft.gives_pure fun n => by rw [Plan.exits_append, Plan.exits_append, ha, hb, hc]

theorem Param.exits_plansBackward (linker : Linker) : ∀ ps : List Param,
    Draft.Gives (Param.plansBackward linker ps) (Plan.Has (Param.exitsBackward ps))
  | [] => Draft.gives_pure fun _ => rfl
  | .mk name guard :: rest => by
    rw [Param.plansBackward, Param.exitsBackward]
    apply (Param.exits_plansBackward linker rest).bind
    intro a ha
    apply (Expr.exits_planGuard linker guard).bind
    intro b hb
    exact Draft.gives_pure fun n => by rw [Plan.exits_emit, Plan.exits_append, ha, hb]

theorem Expr.exits_planGuard (linker : Linker) : ∀ guard : Option Expr,
    Draft.Gives (Expr.planGuard linker guard) (Plan.Has (Expr.exitsOption guard))
  | none => Draft.gives_pure fun _ => rfl
  | some e => Expr.exits_plan linker e

theorem Block.exits_planBody (linker : Linker) : ∀ b : Block,
    Draft.Gives (b.planBody linker) fun a => a.exits none = b.exits none
  | .mk s body => by
    rw [Block.planBody, Block.exits]
    apply (Stmt.exits_plans linker body).bind
    intro a ha
    apply Draft.gives_pure
    rw [← ha none]
    split
    · rfl
    · exact Plan.exits_emit _ _

theorem Stmt.exits_plans (linker : Linker) : ∀ body : List Stmt,
    Draft.Gives (Stmt.plans linker body) fun a => ∀ n, a.exits n = Stmt.allExits n body
  | [] => Draft.gives_pure fun _ => rfl
  | s :: rest => by
    rw [Stmt.plans]
    apply (Stmt.exits_plan linker s).bind
    intro a ha
    apply (Stmt.exits_plans linker rest).bind
    intro b hb
    apply Draft.gives_pure
    intro n
    rw [Stmt.allExits, Plan.exits_append, Plan.exits_discard, ha, hb]

theorem Block.exits_plan (linker : Linker) : ∀ b : Block,
    Draft.Gives (b.plan linker) fun a => ∀ n, a.exits n = b.exits n
  | .mk _ body => Stmt.exits_plans linker body

theorem Block.exits_planOption (linker : Linker) : ∀ b : Option Block,
    Draft.Gives (Block.planOption linker b) fun a =>
      ∀ n, a.elim [] (Plan.exits n) = Block.exitsOption (n.map (· + 1)) b
  | none => Draft.gives_pure fun _ => rfl
  | some b => by
    rw [Block.planOption]
    apply (Block.exits_plan linker b).bind
    intro a ha
    exact Draft.gives_pure fun n => ha _

theorem Branch.exits_plans (linker : Linker) : ∀ bs : List Branch,
    Draft.Gives (Branch.plans linker bs) fun as =>
      ∀ n, as.flatMap (fun arm => arm.1.exits n ++ arm.2.exits n) = Branch.exits (n.map (· + 1)) bs
  | [] => Draft.gives_pure fun _ => rfl
  | .mk cond body :: rest => by
    rw [Branch.plans]
    apply (Expr.exits_plan linker cond).bind
    intro a ha
    apply (Block.exits_plan linker body).bind
    intro b hb
    apply (Branch.exits_plans linker rest).bind
    intro as has
    apply Draft.gives_pure
    intro n
    rw [List.flatMap_cons, has, ha, Plan.exits, hb, Branch.exits]

theorem Case.exits_plans (linker : Linker) : ∀ cs : List Case,
    Draft.Gives (Case.plans linker cs) fun as =>
      ∀ n, as.flatMap (fun arm => arm.1.exits n ++ arm.2.exits n) = Case.exits (n.map (· + 1)) cs
  | [] => Draft.gives_pure fun _ => rfl
  | .mk values body :: rest => by
    rw [Case.plans]
    apply (Expr.exits_planAlternatives linker values none).bind
    intro t ht
    apply (Block.exits_plan linker body).bind
    intro b hb
    apply (Case.exits_plans linker rest).bind
    intro as has
    apply Draft.gives_pure
    intro n
    have htest : (t.getD (Plan.boolean body.span false)).exits n = Expr.allExits values := by
      have ht := ht n
      cases t with
      | none => exact ht
      | some t => exact ht
    rw [List.flatMap_cons, has, htest, Plan.exits, hb, Case.exits]

theorem Expr.exits_planAlternatives (linker : Linker) : ∀ (values : List Expr) (before : Option Plan),
    Draft.Gives (Expr.planAlternatives linker before values) fun t =>
      ∀ n, t.elim [] (Plan.exits n) = before.elim [] (Plan.exits n) ++ Expr.allExits values
  | [], before => Draft.gives_pure fun _ => (List.append_nil _).symm
  | v :: rest, before => by
    rw [Expr.planAlternatives]
    apply (Expr.exits_plan linker v).bind
    intro a ha
    constructor
    intro opened n
    rw [(Expr.exits_planAlternatives linker rest _).holds opened n, Expr.allExits, ← ha n]
    cases before <;> simp

theorem Expr.exits_planOption (linker : Linker) : ∀ e : Option Expr,
    Draft.Gives (Expr.planOption linker e) fun a =>
      ∀ n, a.elim [] (Plan.exits n) = Expr.exitsOption e
  | none => Draft.gives_pure fun _ => rfl
  | some e => by
    rw [Expr.planOption]
    apply (Expr.exits_plan linker e).bind
    intro a ha
    exact Draft.gives_pure ha

theorem Stmt.exits_planOption (linker : Linker) : ∀ s : Option Stmt,
    Draft.Gives (Stmt.planOption linker s) fun a => ∀ n, a.exits n = Stmt.exitsOption n s
  | none => Draft.gives_pure fun _ => rfl
  | some s => by
    rw [Stmt.planOption]
    apply (Stmt.exits_plan linker s).bind
    intro a ha
    exact Draft.gives_pure fun n => (Plan.exits_discard a).trans (ha n)

theorem Stmt.exits_plan (linker : Linker) : ∀ s : Stmt,
    Draft.Gives (s.plan linker) fun a => ∀ n, a.exits n = s.exits n
  | .expr s x => Expr.exits_plan linker x
  | .block body => by
    rw [Stmt.plan]
    apply (Block.exits_plan linker body).bind
    intro a ha
    apply Draft.gives_pure
    intro n
    rw [Plan.exits, Plan.exits_emit, Plan.exits, ha, Stmt.exits]
  | .cond s branches otherwise => by
    rw [Stmt.plan]
    apply (Branch.exits_plans linker branches).bind
    intro as has
    apply (Block.exits_planOption linker otherwise).bind
    intro b hb
    apply Draft.gives_pure
    intro n
    rw [Plan.exits, Plan.exits_chain, has, hb, Stmt.exits]
  | .whileLoop s cond body => by
    rw [Stmt.plan]
    apply (Expr.exits_plan linker cond).bind
    intro a ha
    apply (Block.exits_plan linker body).bind
    intro b hb
    apply Draft.gives_pure
    intro n
    simp [Stmt.exits, ha _, hb _]
  | .forLoop s init cond step body => by
    rw [Stmt.plan]
    apply (Stmt.exits_planOption linker init).bind
    intro i hi
    apply (Expr.exits_planOption linker cond).bind
    intro c hc
    apply (Block.exits_plan linker body).bind
    intro b hb
    apply (Stmt.exits_planOption linker step).bind
    intro d hd
    apply Draft.gives_pure
    intro n
    have htest : (if c.isSome then (c.getD Plan.empty).exits (n.map (· + 1)) else []) =
        Expr.exitsOption cond := by
      rw [← hc (n.map (· + 1))]
      cases c <;> rfl
    rw [Plan.exits, Plan.exits, htest, hi, hd, Plan.exits, hb, Stmt.exits]
    rfl
  | .loop s count body => by
    rw [Stmt.plan]
    apply (Expr.exits_plan linker count).bind
    intro a ha
    apply (Block.exits_plan linker body).bind
    intro b hb
    apply Draft.gives_pure
    intro n
    rw [Plan.exits_repeatLoop, ha, Plan.exits, hb, Stmt.exits]
    rfl
  | .each s name source body => by
    rw [Stmt.plan]
    apply (Expr.exits_plan linker source).bind
    intro a ha
    apply (Block.exits_plan linker body).bind
    intro b hb
    apply Draft.gives_pure
    intro n
    rw [Plan.exits_eachLoop, ha, hb, Stmt.exits]
  | .select s subject cases otherwise => by
    rw [Stmt.plan]
    apply (Expr.exits_plan linker subject).bind
    intro a ha
    apply (Case.exits_plans linker cases).bind
    intro as has
    apply (Block.exits_planOption linker otherwise).bind
    intro b hb
    apply Draft.gives_pure
    intro n
    have htwice : (n.map (· + 1)).map (· + 1) = n.map (· + 2) := by
      cases n <;> rfl
    rw [Plan.exits_selectChain, ha, has, hb, htwice, Stmt.exits, List.append_assoc]
  | .impl s method type params body => by
    rw [Stmt.plan]
    split
    · next h =>
      apply Draft.gives_pure
      intro n
      rw [Stmt.exits, if_pos h]
      rfl
    · next h =>
      apply (Param.exits_plansBackward linker params).bind
      intro a ha
      apply (Block.exits_planBody linker body).bind
      intro b hb
      apply Draft.gives_pure
      intro n
      rw [Plan.exits, Plan.exits_emit, Plan.exits_function, ha, hb, Stmt.exits, if_neg h]
  | .typeDef s name fields => Draft.gives_pure fun _ => rfl
  | .ret s value => by
    rw [Stmt.plan]
    apply (Expr.exits_planOption linker value).bind
    intro a ha
    apply Draft.gives_pure
    intro n
    have ha := ha n
    rw [Plan.exits, Plan.exits_emit, Stmt.exits, ← ha]
    cases a <;> rfl
  | .leave s => Draft.gives_pure fun _ => rfl
  | .again s => Draft.gives_pure fun _ => rfl
  | .imports s path names => Draft.gives_pure fun _ => Plan.exits_importStmt ..
  | .exports s names => by
    cases linker with
    | absent => exact Draft.gives_pure fun _ => rfl
    | closed => exact Draft.gives_pure fun _ => rfl
    | modules =>
      constructor
      intro opened n
      exact (Plan.exits_emit _ _).trans (Plan.exits_exportCode s (!opened) names)
  | .missing => Draft.gives_pure fun _ => rfl

end

/-!
# Exits of compiled loops

A tree that lacks no node is compiled to its plan written out. No exit is left waiting: each statement
that leaves a loop or goes on with its next round is a jump behind the scopes that it closes, or, without
a loop around it in its function, one instruction. No distance crosses the bounds of a function.
-/

namespace Plan

/-- Every distance in the code leads to an instruction, and into the body of a function exactly if it
stands in there. -/
def Contained (code : List Instruction) : Prop :=
  ∀ i ins, code[i]? = some ins → ins.leads = true →
    ∃ op target, ins = leap op i target ∧ target < code.length ∧
      ∀ b last, code[b]? = some (leap .buildFunc b last) →
        b < last ∧ last ≤ code.length ∧ (b < i ∧ i < last ↔ b < target ∧ target < last)

theorem Leads.contained {code : List Instruction} (h : Leads (fun _ => False) 0 code.length code) :
    Contained code := by
  intro i ins hi hleads
  obtain ⟨op, target, rfl, htarget⟩ := h.jumps i ins hi hleads
  rw [Nat.zero_add] at hi ⊢
  refine ⟨op, target, rfl, (htarget.resolve_left id).2, ?_⟩
  intro b last hb
  have hbodies := h.bodies b last
  simp only [Nat.zero_add] at hbodies
  obtain ⟨hrange, -, hsides⟩ := hbodies hb
  exact ⟨hrange.1, hrange.2, hsides i op target hi ((leads_leap _ _ _).symm.trans hleads)⟩

end Plan

namespace Compiler

/-- A tree that lacks no node is compiled to what its plan builds. -/
theorem builds_plan (linker : Linker) (exporting : Bool) (body : List Stmt)
    (h : Stmt.allWhole body = true) :
    ∃ f p, stmts linker Place.top body ⟨#[], exporting⟩ = .ok f p ∧
      (Stmt.plans linker body exporting).1.build none = f ∧
      (Stmt.plans linker body exporting).1.sound = true ∧
      (Stmt.plans linker body exporting).1.ended = true ∧
      (p.problems = #[] → (Stmt.plans linker body exporting).1.proper = true) := by
  have hfollows : ∀ clean, Gen.Follows clean (stmts linker Place.top body) (Stmt.plans linker body)
      (EndedAt clean Place.top) := fun _ => follows_stmts linker body Place.fits_top h
  obtain ⟨f, p, hrun, -, -, hmakes⟩ := hfollows False ⟨#[], exporting⟩
  obtain ⟨f', p', hrun', -, -, hproper⟩ := hfollows True ⟨#[], exporting⟩
  obtain ⟨hbuild, hended⟩ := hmakes fun hfalse => hfalse.elim
  rw [hrun] at hrun'
  cases hrun'
  refine ⟨f, p, hrun, hbuild.build, hbuild.sound, hended, ?_⟩
  intro hnone
  exact (hproper fun _ => by rw [hnone]).1.proper trivial

/-- The code is the plan written out, and the exits of a tree are resolved in it: they stand one behind
another at the sites of the plan, and only those without a loop around them are exits in the code. -/
structure ResolvesExits (plan : Plan) (exits : List Exit) (code : List Instruction) : Prop where
  written : code = (plan.write none none 0).map Prod.fst
  exits : (plan.sites none 0).map Plan.Site.exit = exits
  ordered : (plan.sites none 0).Pairwise fun s t => s.stop ≤ t.start
  resolved : ∀ s ∈ plan.sites none 0, s.Resolved code
  remaining : ∀ i again, code[i]? = some (Plan.exitAlone again) → ⟨again, i, none⟩ ∈ plan.sites none 0

/-- Compiling a tree that lacks no node leaves no exit waiting, resolves each where it stands, and keeps
every distance inside of the function that it starts from. -/
theorem loop_exits_resolved (linker : Linker) (exporting : Bool) (body : List Stmt)
    (h : Stmt.allWhole body = true) :
    ∃ f p, stmts linker Place.top body ⟨#[], exporting⟩ = .ok f p ∧
      (compile linker exporting body).result = .ok ⟨⟨f.code.toArray, f.debug⟩, p.problems.toList⟩ ∧
      f.exits = [] ∧
      ResolvesExits (Stmt.plans linker body exporting).1 (Stmt.allExits none body) f.code ∧
      Plan.Contained f.code := by
  obtain ⟨f, p, hrun, hbuild, hsound, hended, -⟩ := builds_plan linker exporting body h
  have hexits := (Stmt.exits_plans linker body).holds exporting none
  generalize (Stmt.plans linker body exporting).1 = plan at *
  have hbecomes := Plan.becomes_build plan none none 0
  rw [Option.map_none, hbuild] at hbecomes
  have hcode : f.code = (plan.write none none 0).map Prod.fst := hbecomes.code
  have hlength : f.code.length = plan.width none := by
    rw [hcode, Plan.length_map_write, Option.map_none]
  refine ⟨f, p, hrun, ?_, ?_, ?_, ?_⟩
  · unfold compile
    rw [EStateM.run, hrun]
  · apply List.eq_nil_iff_forall_not_mem.mpr
    intro e he
    cases (hbecomes.exits e he).2
  · constructor
    · exact hcode
    · exact (Plan.map_sites plan none 0).trans hexits
    · exact plan.sites_ordered none 0
    · exact plan.resolved_sites f.code none none 0 (hcode ▸ Plan.Holds.all f.code)
        (Plan.Inside.noLoop _ _ _)
    · intro i again hi
      have hremain := plan.remain_write none none 0 hsound
      rw [← hcode] at hremain
      have hmem := hremain i again hi
      rwa [Nat.zero_add] at hmem
  · have hleads := plan.leads_write none none 0 (fun _ => False) hsound (fun _ h => absurd h.symm (Option.some_ne_none _))
      fun _ h => h.elim
    rw [← hcode, Option.map_none, Plan.stop, if_pos hended, ← hlength, Nat.zero_add] at hleads
    exact hleads.contained

/-- The loop `for ; ; null { if true { break } continue }`. -/
def leavingLoop : List Stmt :=
  [.forLoop .zero none none (some (.expr .zero (.null .zero)))
    (.mk .zero
      [.cond .zero [.mk (.boolean .zero true) (.mk .zero [.leave .zero])] none, .again .zero])]

theorem loop_exits_resolved_leavingLoop :
    Stmt.allWhole leavingLoop = true ∧
      ∃ f p, stmts .absent Place.top leavingLoop ⟨#[], false⟩ = .ok f p ∧
        (compile .absent false leavingLoop).result =
          .ok ⟨⟨f.code.toArray, f.debug⟩, p.problems.toList⟩ ∧
        f.exits = [] ∧
        ResolvesExits (Stmt.plans .absent leavingLoop false).1 [⟨false, some 2⟩, ⟨true, some 1⟩] f.code ∧
        Plan.Contained f.code :=
  ⟨rfl, loop_exits_resolved .absent false leavingLoop rfl⟩

/-- A function implemented for no type, whose body is the loop `while true { break }`. -/
def untypedImpl : Block :=
  .mk .zero [.whileLoop .zero (.boolean .zero true) (.mk .zero [.leave .zero])]

/-- No code is generated for a function that is implemented for no type, so its exits become nothing. -/
theorem untyped_impl_without_exits :
    Stmt.allWhole [.impl .zero "m" "" [] untypedImpl] = true ∧
      untypedImpl.exits none = [⟨false, some 1⟩] ∧
      ∃ c, (compile .absent false [.impl .zero "m" "" [] untypedImpl]).result = .ok c ∧
        c.program.code = #[.bare .pushNull, .bare .pop] :=
  ⟨rfl, rfl, _, rfl, rfl⟩

end Compiler

end ScriptEngine
