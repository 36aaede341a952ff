import ScriptEngine.Compiler.Generate
import ScriptEngine.Proofs.Program.Unplaced

/-!
# Compiling trees without places

Where the nodes of a tree stand in the source text has no influence on what is generated for them. Done
with a tree whose nodes are at no particular place, every step of the generator does the same, with
debug entries and problems at no particular place. So trees that differ in places only have programs
and problems that differ in places only.
-/

namespace ScriptEngine

/-!
# Trees
-/

mutual

/-- The expression with every node at no particular place. -/
def Expr.unplaced : Expr → Expr
  | .number _ x => .number .zero x
  | .text _ t => .text .zero t
  | .boolean _ b => .boolean .zero b
  | .null _ => .null .zero
  | .var _ name => .var .zero name
  | .list _ items => .list .zero (Expr.allUnplaced items)
  | .dict _ entries => .dict .zero (Entry.allUnplaced entries)
  | .binary _ op left right => .binary .zero op left.unplaced right.unplaced
  | .unary _ op operand => .unary .zero op operand.unplaced
  | .assign _ target value scope => .assign .zero target.unplaced value.unplaced scope
  | .call _ callee args => .call .zero callee.unplaced (Expr.allUnplaced args)
  | .member _ object name => .member .zero object.unplaced name
  | .index _ object key => .index .zero object.unplaced key.unplaced
  | .func _ name params body => .func .zero name (Param.allUnplaced params) body.unplaced
  | .missing => .missing

def Expr.allUnplaced : List Expr → List Expr
  | [] => []
  | e :: rest => e.unplaced :: Expr.allUnplaced rest

def Expr.unplacedOption : Option Expr → Option Expr
  | none => none
  | some e => some e.unplaced

def Entry.allUnplaced : List Entry → List Entry
  | [] => []
  | .mk key value :: rest => .mk key.unplaced value.unplaced :: Entry.allUnplaced rest

def Param.allUnplaced : List Param → List Param
  | [] => []
  | .mk name guard :: rest => .mk name (Expr.unplacedOption guard) :: Param.allUnplaced rest

def Block.unplaced : Block → Block
  | .mk _ body => .mk .zero (Stmt.allUnplaced body)

def Block.unplacedOption : Option Block → Option Block
  | none => none
  | some b => some b.unplaced

def Branch.allUnplaced : List Branch → List Branch
  | [] => []
  | .mk cond body :: rest => .mk cond.unplaced body.unplaced :: Branch.allUnplaced rest

def Case.allUnplaced : List Case → List Case
  | [] => []
  | .mk values body :: rest =>
    .mk (Expr.allUnplaced values) body.unplaced :: Case.allUnplaced rest

/-- The statement with every node at no particular place. -/
def Stmt.unplaced : Stmt → Stmt
  | .expr _ x => .expr .zero x.unplaced
  | .block body => .block body.unplaced
  | .cond _ branches otherwise =>
    .cond .zero (Branch.allUnplaced branches) (Block.unplacedOption otherwise)
  | .whileLoop _ cond body => .whileLoop .zero cond.unplaced body.unplaced
  | .forLoop _ init cond step body =>
    .forLoop .zero (Stmt.unplacedOption init) (Expr.unplacedOption cond) (Stmt.unplacedOption step)
      body.unplaced
  | .loop _ count body => .loop .zero count.unplaced body.unplaced
  | .each _ name source body => .each .zero name source.unplaced body.unplaced
  | .select _ subject cases otherwise =>
    .select .zero subject.unplaced (Case.allUnplaced cases) (Block.unplacedOption otherwise)
  | .impl _ method type params body =>
    .impl .zero method type (Param.allUnplaced params) body.unplaced
  | .typeDef _ name fields => .typeDef .zero name fields
  | .ret _ value => .ret .zero (Expr.unplacedOption value)
  | .leave _ => .leave .zero
  | .again _ => .again .zero
  | .imports _ path names => .imports .zero path names
  | .exports _ names => .exports .zero names
  | .missing => .missing

def Stmt.unplacedOption : Option Stmt → Option Stmt
  | none => none
  | some s => some s.unplaced

/-- The statements with every node at no particular place. -/
def Stmt.allUnplaced : List Stmt → List Stmt
  | [] => []
  | s :: rest => s.unplaced :: Stmt.allUnplaced rest

end

/-!
# What the generator asks of a tree
-/

@[simp] theorem Expr.span_unplaced (e : Expr) : e.unplaced.span = .zero := by
  cases e <;> rfl

@[simp] theorem Expr.kind_unplaced (e : Expr) : e.unplaced.kind = e.kind := by
  cases e <;> rfl

@[simp] theorem Block.span_unplaced (b : Block) : b.unplaced.span = .zero := by
  cases b
  rfl

@[simp] theorem Stmt.isReturn_unplaced (s : Stmt) : s.unplaced.isReturn = s.isReturn := by
  cases s <;> rfl

theorem Expr.allUnplaced_eq_map (es : List Expr) : Expr.allUnplaced es = es.map Expr.unplaced := by
  induction es with
  | nil => rfl
  | cons e rest ih => exact congrArg (e.unplaced :: ·) ih

theorem Stmt.allUnplaced_eq_map (body : List Stmt) :
    Stmt.allUnplaced body = body.map Stmt.unplaced := by
  induction body with
  | nil => rfl
  | cons s rest ih => exact congrArg (s.unplaced :: ·) ih

@[simp] theorem Expr.length_allUnplaced (es : List Expr) : (Expr.allUnplaced es).length = es.length := by
  rw [Expr.allUnplaced_eq_map, List.length_map]

@[simp] theorem Entry.length_allUnplaced (es : List Entry) :
    (Entry.allUnplaced es).length = es.length := by
  induction es with
  | nil => rfl
  | cons e rest ih =>
    cases e
    exact congrArg (· + 1) ih

@[simp] theorem Param.length_allUnplaced (ps : List Param) :
    (Param.allUnplaced ps).length = ps.length := by
  induction ps with
  | nil => rfl
  | cons p rest ih =>
    cases p
    exact congrArg (· + 1) ih

@[simp] theorem Param.names_allUnplaced (ps : List Param) :
    (Param.allUnplaced ps).map Param.name = ps.map Param.name := by
  induction ps with
  | nil => rfl
  | cons p rest ih =>
    cases p
    exact congrArg (_ :: ·) ih

namespace Compiler

/-- Whether an expression is missing, as the cases of a selection ask. -/
def isMissing : Expr → Bool
  | .missing => true
  | _ => false

theorem lacksValue_unplaced (cs : List Case) : lacksValue (Case.allUnplaced cs) = lacksValue cs := by
  have hmissing : ∀ es : List Expr, (Expr.allUnplaced es).any isMissing = es.any isMissing := by
    intro es
    rw [Expr.allUnplaced_eq_map, List.any_map]
    congr 1
    funext e
    cases e <;> rfl
  induction cs with
  | nil => rfl
  | cons c rest ih =>
    obtain ⟨values, body⟩ := c
    unfold lacksValue at ih ⊢
    rw [Case.allUnplaced, List.any_cons, List.any_cons, ih]
    exact congrArg (· || _) (hmissing values)

end Compiler

/-!
# Fragments
-/

namespace Fragment

/-- The fragment with its nodes at no particular places. -/
def unplaced (f : Fragment) : Fragment :=
  { f with debug := f.debug.map DebugEntry.unplaced }

@[simp] theorem length_unplaced (f : Fragment) : f.unplaced.length = f.length := rfl

@[simp] theorem code_unplaced (f : Fragment) : f.unplaced.code = f.code := rfl

@[simp] theorem unplaced_empty : empty.unplaced = empty := rfl

@[simp] theorem unplaced_ofCode (code : List Instruction) : (ofCode code).unplaced = ofCode code := rfl

@[simp] theorem unplaced_emit (f : Fragment) (code : List Instruction) :
    (f.emit code).unplaced = f.unplaced.emit code := rfl

@[simp] theorem unplaced_discard (f : Fragment) : f.discard.unplaced = f.unplaced.discard := rfl

@[simp] theorem unplaced_append (f g : Fragment) : (f ++ g).unplaced = f.unplaced ++ g.unplaced := by
  show unplaced (append f g) = append f.unplaced g.unplaced
  unfold unplaced append
  dsimp only
  rw [List.map_append, List.map_map, List.map_map]
  rfl

@[simp] theorem unplaced_mark (f : Fragment) (kind : String) (span : Span) :
    (f.mark kind span).unplaced = f.unplaced.mark kind .zero := by
  unfold mark
  rw [code_unplaced]
  split
  · rfl
  · unfold unplaced
    dsimp only
    rw [List.map_append]
    rfl

@[simp] theorem unplaced_resolve (f : Fragment) (leave again : Nat) :
    (f.resolve leave again).unplaced = f.unplaced.resolve leave again := rfl

section
variable (span : Span)

@[simp] theorem unplaced_number (x : Float) : (number span x).unplaced = number .zero x := rfl

@[simp] theorem unplaced_text (t : Text) : (text span t).unplaced = text .zero t := rfl

@[simp] theorem unplaced_boolean (b : Bool) : (boolean span b).unplaced = boolean .zero b := rfl

@[simp] theorem unplaced_null : (null span).unplaced = null .zero := rfl

@[simp] theorem unplaced_var (name : Text) : (var span name).unplaced = var .zero name := rfl

@[simp] theorem unplaced_list (n : Nat) (f : Fragment) :
    (list span n f).unplaced = list .zero n f.unplaced := by
  simp [list]

@[simp] theorem unplaced_dict (n : Nat) (f : Fragment) :
    (dict span n f).unplaced = dict .zero n f.unplaced := by
  simp [dict]

@[simp] theorem unplaced_binary (op : Text) (l r : Fragment) :
    (binary span op l r).unplaced = binary .zero op l.unplaced r.unplaced := by
  unfold binary
  rw [unplaced_mark, apply_ite unplaced, apply_ite unplaced]
  simp

@[simp] theorem unplaced_unary (op : Text) (f : Fragment) :
    (unary span op f).unplaced = unary .zero op f.unplaced := by
  simp [unary]

@[simp] theorem unplaced_call (n : Nat) (args callee : Fragment) :
    (call span n args callee).unplaced = call .zero n args.unplaced callee.unplaced := by
  simp [call]

@[simp] theorem unplaced_member (f : Fragment) (name : Text) :
    (member span f name).unplaced = member .zero f.unplaced name := by
  simp [member]

@[simp] theorem unplaced_index (f key : Fragment) :
    (index span f key).unplaced = index .zero f.unplaced key.unplaced := by
  simp [index]

@[simp] theorem unplaced_assign (value : Fragment) (target : Option Fragment) (scope : Scope) :
    (assign span value target scope).unplaced =
      assign .zero value.unplaced (target.map unplaced) scope := by
  cases target <;> simp [assign]

end

@[simp] theorem unplaced_function (params : Fragment) (count : Nat) (selfType : Text) (body : Fragment) :
    (function params count selfType body).unplaced =
      function params.unplaced count selfType body.unplaced := by
  unfold function
  dsimp only
  rw [unplaced_append, unplaced_emit, apply_ite unplaced]
  rfl

@[simp] theorem unplaced_inScope (f : Fragment) : (inScope f).unplaced = inScope f.unplaced := by
  simp [inScope]

/-- The parts of a chain at no particular places. -/
abbrev unplacedPair : Fragment × Fragment → Fragment × Fragment :=
  Prod.map unplaced unplaced

theorem unplaced_arms (branches : List (Fragment × Fragment)) (otherwise : Option Fragment) :
    (arms branches otherwise).unplaced =
      arms (branches.map unplacedPair) (otherwise.map unplaced) := by
  induction branches with
  | nil => cases otherwise <;> rfl
  | cons b rest ih =>
    obtain ⟨cond, body⟩ := b
    cases rest with
    | nil =>
      cases otherwise with
      | none => simp [arms]
      | some other => simp [arms]
    | cons next rest =>
      have hnext : ∀ (cond body : Fragment) (next : Fragment × Fragment) rest otherwise,
          arms ((cond, body) :: next :: rest) otherwise =
            (cond.emit [.withDistance .jumpIfFalse (body.length + 1)] ++ body).emit
              [.withDistance .jump (arms (next :: rest) otherwise).length] ++
                arms (next :: rest) otherwise :=
        fun _ _ _ _ _ => rfl
      rw [List.map_cons, List.map_cons, hnext, hnext, ← List.map_cons, ← ih, unplaced_append,
        unplaced_emit, unplaced_append, unplaced_emit]
      rfl

@[simp] theorem unplaced_chain (branches : List (Fragment × Fragment)) (otherwise : Option Fragment) :
    (chain branches otherwise).unplaced =
      chain (branches.map unplacedPair) (otherwise.map unplaced) := by
  unfold chain
  rw [unplaced_emit, unplaced_arms]

@[simp] theorem unplaced_loop (init : Fragment) (cond : Option Fragment) (body step : Fragment) :
    (loop init cond body step).unplaced =
      loop init.unplaced (cond.map unplaced) body.unplaced step.unplaced := by
  unfold loop
  cases cond with
  | none | some =>
    simp only [unplaced_append, unplaced_emit, unplaced_resolve, unplaced_ofCode, Option.map_some,
      Option.map_none, unplaced_empty]
    rfl

theorem unplaced_exit (again : Bool) (scopes : Option Nat) :
    (exit again scopes).unplaced = exit again scopes := by
  cases scopes <;> rfl

end Fragment

namespace Compiler

section
variable (span : Span)

open Fragment

@[simp] theorem unplaced_assignStmt (name : Text) (value : Fragment) (scope : Scope) :
    (assignStmt span name value scope).unplaced = assignStmt .zero name value.unplaced scope := by
  simp [assignStmt, varTarget]

@[simp] theorem unplaced_nextStep (scope : Scope) :
    (nextStep span scope).unplaced = nextStep .zero scope := by
  simp [nextStep]

@[simp] theorem unplaced_stepPart (n : Nat) : (stepPart span n).unplaced = stepPart .zero n := by
  simp [stepPart]

theorem unplaced_eachLoop (name : Text) (source stmts : Fragment) :
    (eachLoop span name source stmts).unplaced = eachLoop .zero name source.unplaced stmts.unplaced := by
  simp [eachLoop]

theorem unplaced_repeatLoop (count body : Fragment) :
    (repeatLoop span count body).unplaced = repeatLoop .zero count.unplaced body.unplaced := by
  simp [repeatLoop]

theorem unplaced_selectChain (subject : Fragment) (cases : List (Fragment × Fragment))
    (otherwise : Option Fragment) :
    (selectChain span subject cases otherwise).unplaced =
      selectChain .zero subject.unplaced (cases.map unplacedPair) (otherwise.map unplaced) := by
  unfold selectChain
  cases cases with
  | nil => cases otherwise <;> simp
  | cons c rest => simp

@[simp] theorem unplaced_caseTest (value : Fragment) :
    (caseTest span value).unplaced = caseTest .zero value.unplaced := by
  simp [caseTest]

theorem unplaced_typeDefCode (name : Text) (fields : List Text) :
    (typeDefCode span name fields).unplaced = typeDefCode .zero name fields := by
  simp [typeDefCode]

/-- Code put together name by name. -/
theorem unplaced_foldl {code code' : Text → Fragment} (h : ∀ name, (code name).unplaced = code' name)
    (names : List Text) (acc : Fragment) :
    (names.foldl (fun acc name => acc ++ code name) acc).unplaced =
      names.foldl (fun acc name => acc ++ code' name) acc.unplaced := by
  induction names generalizing acc with
  | nil => rfl
  | cons name rest ih => rw [List.foldl_cons, List.foldl_cons, ih, unplaced_append, h]

@[simp] theorem unplaced_importCode (path : Text) (names : List Text) :
    (importCode span path names).unplaced = importCode .zero path names := by
  unfold importCode
  dsimp only
  split
  · simp
  · exact unplaced_foldl (fun name => by simp) names _

@[simp] theorem unplaced_exportCode (first : Bool) (names : List Text) :
    (exportCode span first names).unplaced = exportCode .zero first names := by
  have hname : ∀ name : Text,
      (Fragment.assign span (var span name) (some ((var span Key.exports).emit [.string name]))
        .nearest).discard.unplaced =
      (Fragment.assign .zero (var .zero name) (some ((var .zero Key.exports).emit [.string name]))
        .nearest).discard := by
    simp
  unfold exportCode
  dsimp only
  rw [unplaced_foldl hname, apply_ite Fragment.unplaced]
  simp

@[simp] theorem unplaced_linked (kind : String) (code : Fragment) :
    (linked span kind code).unplaced = linked .zero kind code.unplaced := by
  simp [linked]

end

/-!
# Generators
-/

/-- What was gathered, with the problems at no particular places. -/
def Progress.unplaced (p : Progress) : Progress :=
  { p with problems := p.problems.map Problem.unplaced }

section
variable {α β : Type} {e : α → α} {e' : β → β}

/-- The second generator does what the first one does, without places: `e` takes them out of an
answer. -/
def Gen.Unplaces (e : α → α) (x x' : Gen α) : Prop :=
  ∀ p, x' p.unplaced =
    match x p with
    | .ok a p => .ok (e a) p.unplaced
    | .error r p => .error r p.unplaced

theorem Gen.unplaces_pure {a b : α} (h : e a = b) : Gen.Unplaces e (pure a) (pure b) := by
  subst h
  exact fun _ => rfl

theorem Gen.unplaces_throw (r : Refusal) : Gen.Unplaces e (throw r) (throw r) :=
  fun _ => rfl

theorem Gen.Unplaces.bind {x x' : Gen α} {k k' : α → Gen β} (hx : Gen.Unplaces e x x')
    (hk : ∀ a, Gen.Unplaces e' (k a) (k' (e a))) : Gen.Unplaces e' (x >>= k) (x' >>= k') := by
  intro p
  have hp := hx p
  show EStateM.bind x' k' p.unplaced = match EStateM.bind x k p with | .ok a p => _ | .error r p => _
  unfold EStateM.bind
  rw [hp]
  cases x p with
  | ok a p => exact hk a p
  | error r p => rfl

end

theorem unplaces_report (code : String) (span : Span) (message : Text) :
    Gen.Unplaces id (report code span message) (report code .zero message) := by
  intro p
  show EStateM.Result.ok () _ = .ok () _
  unfold Progress.unplaced
  dsimp only
  rw [Array.map_push]
  rfl

theorem unplaces_checkDistinct (message : Text → Text) (code : String) (span : Span)
    (seen names : List Text) :
    Gen.Unplaces id (checkDistinct message code span seen names)
      (checkDistinct message code .zero seen names) := by
  induction names generalizing seen with
  | nil => exact Gen.unplaces_pure rfl
  | cons name rest ih =>
    unfold checkDistinct
    split
    · exact (unplaces_report code span _).bind fun _ => ih _
    · exact ih _

theorem unplaces_checkParams (span : Span) (selfType : Text) (names : List Text) :
    Gen.Unplaces id (checkParams span selfType names) (checkParams .zero selfType names) :=
  unplaces_checkDistinct _ _ _ _ _

theorem unplaces_checkTypeDef (span : Span) (name : Text) (fields : List Text) :
    Gen.Unplaces id (checkTypeDef span name fields) (checkTypeDef .zero name fields) := by
  unfold checkTypeDef
  split
  · exact (unplaces_report _ _ _).bind fun _ => unplaces_checkDistinct _ _ _ _ _
  · exact unplaces_checkDistinct _ _ _ _ _

theorem unplaces_importStmt (linker : Linker) (span : Span) (path : Text) (names : List Text) :
    Gen.Unplaces Fragment.unplaced (importStmt linker span path names)
      (importStmt linker .zero path names) := by
  cases linker with
  | absent | closed =>
    exact (unplaces_report _ _ _).bind fun _ => Gen.unplaces_pure (unplaced_linked ..)
  | modules => exact Gen.unplaces_pure (by simp)

theorem unplaces_exportStmt (linker : Linker) (span : Span) (names : List Text) :
    Gen.Unplaces Fragment.unplaced (exportStmt linker span names) (exportStmt linker .zero names) := by
  cases linker with
  | absent | closed =>
    exact (unplaces_report _ _ _).bind fun _ => Gen.unplaces_pure (unplaced_linked ..)
  | modules =>
    intro p
    show EStateM.Result.ok (linked .zero "Export" (exportCode .zero (!p.exporting) names)) _ =
      .ok (Fragment.unplaced (linked span "Export" (exportCode span (!p.exporting) names))) _
    rw [unplaced_linked, unplaced_exportCode]
    rfl

/-!
# The walk
-/

/-- Pairs of fragments without places. -/
abbrev unplacedPairs : List (Fragment × Fragment) → List (Fragment × Fragment) :=
  List.map Fragment.unplacedPair

mutual

theorem unplaces_expr (linker : Linker) : ∀ e : Expr,
    Gen.Unplaces Fragment.unplaced (expr linker e) (expr linker e.unplaced)
  | .number .. | .text .. | .boolean .. | .null _ | .var .. => by
    rw [Expr.unplaced, expr, expr]
    exact Gen.unplaces_pure (by simp)
  | .list s items => by
    rw [Expr.unplaced, expr, expr]
    exact (unplaces_exprsBackward linker items).bind fun _ => Gen.unplaces_pure (by simp)
  | .dict s entries => by
    rw [Expr.unplaced, expr, expr]
    exact (unplaces_entriesBackward linker entries).bind fun _ => Gen.unplaces_pure (by simp)
  | .binary s op left right => by
    rw [Expr.unplaced, expr, expr]
    exact (unplaces_expr linker left).bind fun _ => (unplaces_expr linker right).bind fun _ =>
      Gen.unplaces_pure (by simp)
  | .unary s op operand => by
    rw [Expr.unplaced, expr, expr]
    exact (unplaces_expr linker operand).bind fun _ => Gen.unplaces_pure (by simp)
  | .assign s target value scope => by
    rw [Expr.unplaced, expr, expr]
    exact (unplaces_expr linker value).bind fun _ => (unplaces_assignTarget linker target).bind fun _ =>
      Gen.unplaces_pure (by simp)
  | .call s callee args => by
    rw [Expr.unplaced, expr, expr]
    exact (unplaces_exprs linker args).bind fun _ => (unplaces_expr linker callee).bind fun _ =>
      Gen.unplaces_pure (by simp)
  | .member s object name => by
    rw [Expr.unplaced, expr, expr]
    exact (unplaces_expr linker object).bind fun _ => Gen.unplaces_pure (by simp)
  | .index s object key => by
    rw [Expr.unplaced, expr, expr]
    exact (unplaces_expr linker object).bind fun _ => (unplaces_expr linker key).bind fun _ =>
      Gen.unplaces_pure (by simp)
  | .func s name params body => by
    rw [Expr.unplaced, expr, expr, Param.names_allUnplaced, Param.length_allUnplaced]
    refine (unplaces_checkParams s _ _).bind fun _ => (unplaces_paramsBackward linker params).bind
      fun _ => (unplaces_functionBody linker body).bind fun _ => Gen.unplaces_pure ?_
    rw [Fragment.unplaced_mark, apply_ite Fragment.unplaced]
    simp
  | .missing => by
    rw [Expr.unplaced, expr]
    exact Gen.unplaces_throw _

theorem unplaces_assignTarget (linker : Linker) : ∀ e : Expr,
    Gen.Unplaces (Option.map Fragment.unplaced) (assignTarget linker e)
      (assignTarget linker e.unplaced)
  | .var s name => by
    rw [Expr.unplaced, assignTarget, assignTarget]
    exact Gen.unplaces_pure rfl
  | .member s object name => by
    rw [Expr.unplaced, assignTarget, assignTarget]
    exact (unplaces_expr linker object).bind fun _ => Gen.unplaces_pure (by simp)
  | .index s object key => by
    rw [Expr.unplaced, assignTarget, assignTarget]
    exact (unplaces_expr linker object).bind fun _ => (unplaces_expr linker key).bind fun _ =>
      Gen.unplaces_pure (by simp)
  | .missing => by
    rw [Expr.unplaced, assignTarget]
    exact Gen.unplaces_throw _
  | .number .. | .text .. | .boolean .. | .null _ | .list .. | .dict .. | .binary .. | .unary ..
  | .assign .. | .call .. | .func .. => by
    rw [Expr.unplaced, assignTarget, assignTarget]
    · exact (unplaces_report _ _ _).bind fun _ => Gen.unplaces_pure rfl
    all_goals simp

theorem unplaces_exprs (linker : Linker) : ∀ es : List Expr,
    Gen.Unplaces Fragment.unplaced (exprs linker es) (exprs linker (Expr.allUnplaced es))
  | [] => by
    rw [Expr.allUnplaced, exprs]
    exact Gen.unplaces_pure rfl
  | e :: rest => by
    rw [Expr.allUnplaced, exprs, exprs]
    exact (unplaces_expr linker e).bind fun _ => (unplaces_exprs linker rest).bind fun _ =>
      Gen.unplaces_pure (by simp)

theorem unplaces_exprsBackward (linker : Linker) : ∀ es : List Expr,
    Gen.Unplaces Fragment.unplaced (exprsBackward linker es)
      (exprsBackward linker (Expr.allUnplaced es))
  | [] => by
    rw [Expr.allUnplaced, exprsBackward]
    exact Gen.unplaces_pure rfl
  | e :: rest => by
    rw [Expr.allUnplaced, exprsBackward, exprsBackward]
    exact (unplaces_exprsBackward linker rest).bind fun _ => (unplaces_expr linker e).bind fun _ =>
      Gen.unplaces_pure (by simp)

theorem unplaces_entriesBackward (linker : Linker) : ∀ es : List Entry,
    Gen.Unplaces Fragment.unplaced (entriesBackward linker es)
      (entriesBackward linker (Entry.allUnplaced es))
  | [] => by
    rw [Entry.allUnplaced, entriesBackward]
    exact Gen.unplaces_pure rfl
  | .mk key value :: rest => by
    rw [Entry.allUnplaced, entriesBackward, entriesBackward]
    exact (unplaces_entriesBackward linker rest).bind fun _ => (unplaces_expr linker value).bind
      fun _ => (unplaces_expr linker key).bind fun _ => Gen.unplaces_pure (by simp)

theorem unplaces_paramsBackward (linker : Linker) : ∀ ps : List Param,
    Gen.Unplaces Fragment.unplaced (paramsBackward linker ps)
      (paramsBackward linker (Param.allUnplaced ps))
  | [] => by
    rw [Param.allUnplaced, paramsBackward]
    exact Gen.unplaces_pure rfl
  | .mk name guard :: rest => by
    rw [Param.allUnplaced, paramsBackward, paramsBackward]
    exact (unplaces_paramsBackward linker rest).bind fun _ => (unplaces_guardExpr linker guard).bind
      fun _ => Gen.unplaces_pure (by simp)

theorem unplaces_guardExpr (linker : Linker) : ∀ guard : Option Expr,
    Gen.Unplaces Fragment.unplaced (guardExpr linker guard)
      (guardExpr linker (Expr.unplacedOption guard))
  | none => by
    rw [Expr.unplacedOption, guardExpr]
    exact Gen.unplaces_pure rfl
  | some e => by
    rw [Expr.unplacedOption, guardExpr, guardExpr]
    exact unplaces_expr linker e

theorem unplaces_functionBody (linker : Linker) : ∀ b : Block,
    Gen.Unplaces Fragment.unplaced (functionBody linker b) (functionBody linker b.unplaced)
  | .mk s body => by
    rw [Block.unplaced, functionBody, functionBody]
    refine (unplaces_stmts linker _ body).bind fun _ => ?_
    rw [Stmt.allUnplaced_eq_map, List.getLast?_map]
    cases body.getLast? with
    | none => exact Gen.unplaces_pure (by simp)
    | some last =>
      refine Gen.unplaces_pure ?_
      rw [Stmt.isReturn_unplaced, apply_ite Fragment.unplaced]
      simp

theorem unplaces_stmts (linker : Linker) (place : Place) : ∀ body : List Stmt,
    Gen.Unplaces Fragment.unplaced (stmts linker place body)
      (stmts linker place (Stmt.allUnplaced body))
  | [] => by
    rw [Stmt.allUnplaced, stmts]
    exact Gen.unplaces_pure rfl
  | s :: rest => by
    rw [Stmt.allUnplaced, stmts, stmts]
    exact (unplaces_stmt linker place s).bind fun _ => (unplaces_stmts linker place rest).bind fun _ =>
      Gen.unplaces_pure (by simp)

theorem unplaces_blockStmts (linker : Linker) (place : Place) : ∀ b : Block,
    Gen.Unplaces Fragment.unplaced (blockStmts linker place b) (blockStmts linker place b.unplaced)
  | .mk s body => by
    rw [Block.unplaced, blockStmts, blockStmts]
    exact unplaces_stmts linker place body

theorem unplaces_block (linker : Linker) (place : Place) : ∀ b : Block,
    Gen.Unplaces Fragment.unplaced (block linker place b) (block linker place b.unplaced)
  | .mk s body => by
    rw [Block.unplaced, block, block]
    exact (unplaces_stmts linker _ body).bind fun _ => Gen.unplaces_pure (by simp)

theorem unplaces_blockOption (linker : Linker) (place : Place) : ∀ b : Option Block,
    Gen.Unplaces (Option.map Fragment.unplaced) (blockOption linker place b)
      (blockOption linker place (Block.unplacedOption b))
  | none => by
    rw [Block.unplacedOption, blockOption]
    exact Gen.unplaces_pure rfl
  | some b => by
    rw [Block.unplacedOption, blockOption, blockOption]
    exact (unplaces_block linker place b).bind fun _ => Gen.unplaces_pure rfl

theorem unplaces_branches (linker : Linker) (place : Place) : ∀ bs : List Branch,
    Gen.Unplaces unplacedPairs (branches linker place bs)
      (branches linker place (Branch.allUnplaced bs))
  | [] => by
    rw [Branch.allUnplaced, branches]
    exact Gen.unplaces_pure rfl
  | .mk cond body :: rest => by
    rw [Branch.allUnplaced, branches, branches]
    exact (unplaces_expr linker cond).bind fun _ => (unplaces_block linker place body).bind fun _ =>
      (unplaces_branches linker place rest).bind fun _ => Gen.unplaces_pure rfl

theorem unplaces_cases (linker : Linker) (place : Place) : ∀ cs : List Case,
    Gen.Unplaces unplacedPairs (cases linker place cs) (cases linker place (Case.allUnplaced cs))
  | [] => by
    rw [Case.allUnplaced, cases]
    exact Gen.unplaces_pure rfl
  | .mk values body :: rest => by
    rw [Case.allUnplaced, cases, cases, Block.span_unplaced]
    refine (unplaces_alternatives linker none values).bind fun test =>
      (unplaces_block linker place body).bind fun _ =>
        (unplaces_cases linker place rest).bind fun _ => Gen.unplaces_pure ?_
    cases test <;> rfl

theorem unplaces_alternatives (linker : Linker) (before : Option Fragment) : ∀ es : List Expr,
    Gen.Unplaces (Option.map Fragment.unplaced) (alternatives linker before es)
      (alternatives linker (before.map Fragment.unplaced) (Expr.allUnplaced es))
  | [] => by
    rw [Expr.allUnplaced, alternatives, alternatives]
    exact Gen.unplaces_pure rfl
  | e :: rest => by
    rw [Expr.allUnplaced, alternatives, alternatives, Expr.span_unplaced]
    refine (unplaces_expr linker e).bind fun f => ?_
    cases before with
    | none => simpa using unplaces_alternatives linker (some (caseTest e.span f)) rest
    | some t =>
      simpa using unplaces_alternatives linker
        (some (Fragment.binary e.span "or" t (caseTest e.span f))) rest

theorem unplaces_exprOption (linker : Linker) : ∀ e : Option Expr,
    Gen.Unplaces (Option.map Fragment.unplaced) (exprOption linker e)
      (exprOption linker (Expr.unplacedOption e))
  | none => by
    rw [Expr.unplacedOption, exprOption]
    exact Gen.unplaces_pure rfl
  | some e => by
    rw [Expr.unplacedOption, exprOption, exprOption]
    exact (unplaces_expr linker e).bind fun _ => Gen.unplaces_pure rfl

theorem unplaces_stmtOption (linker : Linker) (place : Place) : ∀ s : Option Stmt,
    Gen.Unplaces Fragment.unplaced (stmtOption linker place s)
      (stmtOption linker place (Stmt.unplacedOption s))
  | none => by
    rw [Stmt.unplacedOption, stmtOption]
    exact Gen.unplaces_pure rfl
  | some s => by
    rw [Stmt.unplacedOption, stmtOption, stmtOption]
    exact (unplaces_stmt linker place s).bind fun _ => Gen.unplaces_pure rfl

theorem unplaces_stmt (linker : Linker) (place : Place) : ∀ s : Stmt,
    Gen.Unplaces Fragment.unplaced (stmt linker place s) (stmt linker place s.unplaced)
  | .expr s x => by
    rw [Stmt.unplaced, stmt, stmt]
    exact unplaces_expr linker x
  | .block body => by
    rw [Stmt.unplaced, stmt, stmt, Block.span_unplaced]
    exact (unplaces_block linker place body).bind fun _ => Gen.unplaces_pure (by simp)
  | .cond s bs otherwise => by
    rw [Stmt.unplaced, stmt, stmt]
    exact (unplaces_branches linker place bs).bind fun _ =>
      (unplaces_blockOption linker place otherwise).bind fun _ => Gen.unplaces_pure (by simp)
  | .whileLoop s cond body => by
    rw [Stmt.unplaced, stmt, stmt]
    exact (unplaces_expr linker cond).bind fun _ => (unplaces_blockStmts linker _ body).bind fun _ =>
      Gen.unplaces_pure (by simp)
  | .forLoop s init cond step body => by
    rw [Stmt.unplaced, stmt, stmt]
    exact (unplaces_stmtOption linker _ init).bind fun _ => (unplaces_exprOption linker cond).bind
      fun _ => (unplaces_blockStmts linker _ body).bind fun _ =>
        (unplaces_stmtOption linker _ step).bind fun _ => Gen.unplaces_pure (by simp)
  | .loop s count body => by
    rw [Stmt.unplaced, stmt, stmt]
    exact (unplaces_expr linker count).bind fun _ => (unplaces_blockStmts linker _ body).bind fun _ =>
      Gen.unplaces_pure (by rw [unplaced_repeatLoop, Fragment.unplaced_inScope])
  | .each s name source body => by
    rw [Stmt.unplaced, stmt, stmt]
    exact (unplaces_expr linker source).bind fun _ => (unplaces_blockStmts linker _ body).bind fun _ =>
      Gen.unplaces_pure (unplaced_eachLoop ..)
  | .select s subject cs otherwise => by
    rw [Stmt.unplaced, stmt, stmt, lacksValue_unplaced]
    refine (unplaces_expr linker subject).bind fun _ => ?_
    cases lacksValue cs with
    | true => exact fun _ => rfl
    | false =>
      exact (unplaces_cases linker _ cs).bind fun _ =>
        (unplaces_blockOption linker _ otherwise).bind fun _ =>
          Gen.unplaces_pure (unplaced_selectChain ..)
  | .impl s method type params body => by
    rw [Stmt.unplaced, stmt, stmt, Param.names_allUnplaced, Param.length_allUnplaced]
    split
    · exact (unplaces_report _ _ _).bind fun _ => Gen.unplaces_pure rfl
    · exact (unplaces_checkParams s _ _).bind fun _ => (unplaces_paramsBackward linker params).bind
        fun _ => (unplaces_functionBody linker body).bind fun _ => Gen.unplaces_pure (by simp)
  | .typeDef s name fields => by
    rw [Stmt.unplaced, stmt, stmt]
    exact (unplaces_checkTypeDef _ _ _).bind fun _ => Gen.unplaces_pure (unplaced_typeDefCode ..)
  | .ret s value => by
    rw [Stmt.unplaced, stmt, stmt]
    refine (unplaces_exprOption linker value).bind fun v => Gen.unplaces_pure ?_
    cases v <;> simp
  | .leave s => by
    rw [Stmt.unplaced, stmt, stmt]
    exact Gen.unplaces_pure (by rw [Fragment.unplaced_mark, Fragment.unplaced_exit])
  | .again s => by
    rw [Stmt.unplaced, stmt, stmt]
    exact Gen.unplaces_pure (by rw [Fragment.unplaced_mark, Fragment.unplaced_exit])
  | .imports s path names => by
    rw [Stmt.unplaced, stmt, stmt]
    exact unplaces_importStmt linker s path names
  | .exports s names => by
    rw [Stmt.unplaced, stmt, stmt]
    exact unplaces_exportStmt linker s names
  | .missing => by
    rw [Stmt.unplaced, stmt]
    exact Gen.unplaces_throw _

end

/-!
# Programs
-/

/-- What was compiled, without places. -/
def Compiled.unplaced (c : Compiled) : Compiled :=
  ⟨c.program.unplaced, c.problems.map Problem.unplaced⟩

/-- What compiling ended with, without places. -/
def Outcome.unplaced (o : Outcome) : Outcome :=
  ⟨o.result.map Compiled.unplaced, o.exporting⟩

theorem compile_unplaced (linker : Linker) (exporting : Bool) (body : List Stmt) :
    compile linker exporting (body.map Stmt.unplaced) = (compile linker exporting body).unplaced := by
  have hstart : (⟨#[], exporting⟩ : Progress).unplaced = ⟨#[], exporting⟩ := by
    unfold Progress.unplaced
    rw [Array.map_empty]
  have hwalk := unplaces_stmts linker Place.top body ⟨#[], exporting⟩
  rw [Stmt.allUnplaced_eq_map, hstart] at hwalk
  unfold compile EStateM.run
  rw [hwalk]
  cases stmts linker Place.top body ⟨#[], exporting⟩ with
  | error e p => rfl
  | ok f p =>
    unfold Outcome.unplaced Progress.unplaced
    dsimp only [Except.map]
    rw [Array.toList_map]
    rfl

/-- Trees that differ in places only are compiled to what differs in places only. -/
theorem compile_alike (linker : Linker) (exporting : Bool) {body body' : List Stmt}
    (h : body.map Stmt.unplaced = body'.map Stmt.unplaced) :
    (compile linker exporting body).unplaced = (compile linker exporting body').unplaced := by
  rw [← compile_unplaced, h, compile_unplaced]


end Compiler
end ScriptEngine
