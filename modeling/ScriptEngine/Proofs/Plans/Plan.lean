import ScriptEngine.Compiler.Generate

/-!
# Plans of code

A plan says which instructions the nodes of a tree put down and where scopes, loops and functions
begin and end, but contains no distance. Writing a plan out from front to back gives every instruction
at its place: the code inside a loop knows where the loop ends, and every instruction knows the node
it is put down for.
-/

namespace ScriptEngine

/-- The parts of code. -/
inductive Plan where
  /-- Instructions without distances. -/
  | ins (code : List Instruction)
  | seq (first second : Plan)
  /-- The code of a node that the debug table records. -/
  | node (kind : String) (span : Span) (body : Plan)
  /-- Code that a conditional jump in front of it may skip. -/
  | skip (op : Operation) (body : Plan)
  /-- Two alternatives between which the value on the stack decides. -/
  | choose (yes no : Plan)
  | scope (body : Plan)
  /-- A loop, whose rounds may be `tested` by a condition. -/
  | loop (init : Plan) (tested : Bool) (cond body step : Plan)
  /-- The body of a function behind the instruction that builds it. -/
  | func (body : Plan)
  /-- A statement that leaves a loop or goes on with its next round. -/
  | exit (again : Bool)

namespace Plan

instance : Append Plan :=
  ⟨seq⟩

/-- Puts instructions behind a plan. -/
def emit (a : Plan) (code : List Instruction) : Plan :=
  a ++ ins code

def empty : Plan :=
  ins []

/-!
# Writing plans out
-/

/-- The innermost loop whose body some code stands in, as that code sees it. -/
structure Around where
  /-- The place of the instruction that closes the loop's scope. -/
  leave : Nat
  /-- The place of its step, or of its jump back if it has none. -/
  again : Nat
  /-- How many scopes are open inside the loop's own. -/
  scopes : Nat

/-- The same loop inside one more scope. -/
def Around.deeper (l : Around) : Around :=
  { l with scopes := l.scopes + 1 }

/-- A node as the debug table names it. -/
structure Label where
  kind : Text
  span : Span
  deriving DecidableEq

/-- How many instructions decide about a round, where a condition has so many. -/
def testWidth (tested : Bool) (cond : Nat) : Nat :=
  if tested then cond + 1 else 0

/-- How many instructions the plan has, where `scopes` are open in the loop around it. -/
def width (scopes : Option Nat) : Plan → Nat
  | ins code => code.length
  | seq a b => a.width scopes + b.width scopes
  | node _ _ a => a.width scopes
  | skip _ a => 1 + a.width scopes
  | choose yes no => 1 + yes.width scopes + 1 + no.width scopes
  | scope a => 1 + a.width (scopes.map (· + 1)) + 1
  | loop init tested cond body step =>
    let inside := scopes.map (· + 1)
    1 + init.width inside + testWidth tested (cond.width inside) + body.width (some 0) +
      step.width inside + 3
  | func a => 1 + a.width none
  | exit _ => scopes.getD 0 + 1

/-- An instruction with the innermost node that it is put down for. -/
abbrev Written := Instruction × Option Label

/-- The instruction at a place that leads to another. -/
def leap (op : Operation) (index target : Nat) : Instruction :=
  .withDistance op ((target : Int) - (index + 1))

/-- The instructions of the plan, which stands at place `k`, inside the body of a loop or not, and
belongs to a node or to none. -/
def write (around : Option Around) (label : Option Label) (k : Nat) : Plan → List Written
  | ins code => code.map (·, label)
  | seq a b => a.write around label k ++ b.write around label (k + a.width (around.map Around.scopes))
  | node kind span a => a.write around (some ⟨kind, span⟩) k
  | skip op a =>
    (leap op k (k + 1 + a.width (around.map Around.scopes)), label) :: a.write around label (k + 1)
  | choose yes no =>
    let other := k + 1 + yes.width (around.map Around.scopes)
    let stop := other + 1 + no.width (around.map Around.scopes)
    (leap .jumpIfFalse k (other + 1), label) :: yes.write around label (k + 1) ++
      (leap .jump other stop, label) :: no.write around label (other + 1)
  | scope a =>
    (.bare .scopeEnter, label) :: a.write (around.map Around.deeper) label (k + 1) ++
      [(.bare .scopeExit, label)]
  | loop init tested cond body step =>
    let outside := around.map Around.deeper
    let inside := outside.map Around.scopes
    let first := k + 1 + init.width inside
    let round := first + testWidth tested (cond.width inside)
    let again := round + body.width (some 0)
    let back := again + step.width inside
    (.bare .scopeEnter, label) :: init.write outside label (k + 1) ++
      (if tested then
        cond.write outside label first ++
          [(leap .jumpIfFalse (first + cond.width inside) (back + 1), label)]
      else []) ++
      body.write (some ⟨back + 1, again, 0⟩) label round ++ step.write outside label again ++
      [(leap .jump back first, label), (.bare .scopeExit, label), (.bare .pushNull, label)]
  | func a => (leap .buildFunc k (k + 1 + a.width none), label) :: a.write none label (k + 1)
  | exit again =>
    match around with
    | none => [(.bare (if again then .again else .leave), label)]
    | some l =>
      List.replicate l.scopes (.bare .scopeExit, label) ++
        [(leap .jump (k + l.scopes) (if again then l.again else l.leave), label)]

/-!
# Plans of expressions
-/

def number (span : Span) (x : Float) : Plan :=
  node "Number" span (ins [.number x])

def text (span : Span) (s : Text) : Plan :=
  node "String" span (ins [.string s])

def boolean (span : Span) (b : Bool) : Plan :=
  node "Boolean" span (ins [.withText .pushBoolean (if b then "true" else "false")])

def null (span : Span) : Plan :=
  node "Null" span (ins [.bare .pushNull])

def var (span : Span) (name : Text) : Plan :=
  node "Variable" span (ins [.withText .getVar name])

/-- A list literal; the items come last first. -/
def list (span : Span) (count : Nat) (itemsBackward : Plan) : Plan :=
  node "List" span (itemsBackward.emit [.count count, .bare .buildList])

/-- A dict literal; the pairs come last first, each with its value before its key. -/
def dict (span : Span) (count : Nat) (pairsBackward : Plan) : Plan :=
  node "Dict" span (pairsBackward.emit [.count count, .bare .buildDict])

/-- A binary operator; the right operand of `and` and `or` may be skipped. -/
def binary (span : Span) (op : Text) (left right : Plan) : Plan :=
  node "Binary" span <|
    if op == "and" then left ++ skip .jumpIfFalsePeek (ins [.bare .pop] ++ right)
    else if op == "or" then left ++ skip .jumpIfTruePeek (ins [.bare .pop] ++ right)
    else (left ++ right).emit [.count 2, .withText .dispatch op]

def unary (span : Span) (op : Text) (operand : Plan) : Plan :=
  node "Unary" span <| operand.emit <|
    if op == "-" then [.bare .negate]
    else if op == "not" then [.bare .not]
    else [.count 1, .withText .dispatch op]

def call (span : Span) (count : Nat) (args callee : Plan) : Plan :=
  node "Call" span ((args.emit [.count count] ++ callee).emit [.bare .call])

def member (span : Span) (object : Plan) (name : Text) : Plan :=
  node "Member" span (object.emit [.string name, .bare .getMember])

def index (span : Span) (object key : Plan) : Plan :=
  node "Index" span ((object ++ key).emit [.bare .getMember])

/-- An assignment: value, then target and name. A missing target leaves only the value. -/
def assign (span : Span) (value : Plan) (target : Option Plan) (scope : Scope) : Plan :=
  match target with
  | none => node "Assign" span value
  | some t => node "Assign" span ((value ++ t).emit [.bare (Fragment.assignOp scope)])

/-- Target and name of an assignment to a variable. -/
def varTarget (name : Text) : Plan :=
  ins [.bare .pushEmpty, .string name]

/-- A function: guards and names of its parameters last first, the optional receiver, their count,
and the body. -/
def function (paramsBackward : Plan) (count : Nat) (selfType : Text) (body : Plan) : Plan :=
  paramsBackward.emit
      (if selfType.isEmpty then [.count count]
      else [.withText .pushType selfType, .string "self", .count (count + 1)]) ++
    func body

/-!
# Plans of statements

An expression statement is no node of its own, nor is a block that is the body of another node. The
instruction that drops the value of a statement belongs to the node that the statement stands in.
-/

def discard (a : Plan) : Plan :=
  a.emit [.bare .pop]

/-- Condition and body pairs, tried in order, and what to do if none holds. -/
def arms : List (Plan × Plan) → Option Plan → Plan
  | [], none => empty
  | [], some other => other
  | [(cond, body)], none => cond ++ skip .jumpIfFalse body
  | (cond, body) :: rest, other => cond ++ choose body (arms rest other)

/-- A chain of conditions, which leaves a null. -/
def chain (branches : List (Plan × Plan)) (otherwise : Option Plan) : Plan :=
  (arms branches otherwise).emit [.bare .pushNull]

/-- The statement `name = value`. -/
def assignStmt (span : Span) (name : Text) (value : Plan) (scope : Scope) : Plan :=
  (assign span value (some (varTarget name)) scope).discard

/-- The statement `$step = $it.next()`. -/
def nextStep (span : Span) (scope : Scope) : Plan :=
  assignStmt span Compiler.hiddenStep
    (call span 0 empty (member span (var span Compiler.hiddenIter) "next")) scope

/-- The expression `$step[n]`. -/
def stepPart (span : Span) (n : Nat) : Plan :=
  index span (var span Compiler.hiddenStep) (number span (Number.ofNat n))

/-- A loop over the iterator protocol:
`for $it = source.iter(), $step = $it.next(); $step[2]; $step = $it.next() { name = $step[1]; … }`. -/
def eachLoop (span : Span) (name : Text) (source stmts : Plan) : Plan :=
  let init := assignStmt span Compiler.hiddenIter (call span 0 empty (member span source "iter")) .inner
  let bind := assignStmt span name (stepPart span 1) .inner
  node "Each" span (loop (init ++ nextStep span .inner) true (stepPart span 2) (scope (bind ++ stmts))
    (nextStep span .nearest))

/-- A loop that counts hidden rounds up to a number evaluated once. -/
def repeatLoop (span : Span) (count body : Plan) : Plan :=
  let init := count.emit
    (Fragment.bindTop Compiler.hiddenCount .inner ++ [.bare .pop, .count 0]
      ++ Fragment.bindTop Compiler.hiddenIndex .inner ++ [.bare .pop])
  let cond := ins
    [.withText .getVar Compiler.hiddenIndex, .withText .getVar Compiler.hiddenCount, .count 2,
      .withText .dispatch "<"]
  node "Loop" span (loop init true cond body (ins [.withText .increment Compiler.hiddenIndex]))

/-- The subject is kept under a hidden name while the cases are tried. -/
def selectChain (span : Span) (subject : Plan) (cases : List (Plan × Plan))
    (otherwise : Option Plan) : Plan :=
  let choice :=
    if cases.isEmpty then otherwise.getD empty
    else (chain cases otherwise).discard
  node "Match" span ((scope (subject.emit (Fragment.bindTop Compiler.hiddenMatch .inner ++ [.bare .pop])
    ++ choice)).emit [.bare .pushNull])

/-- Compares the subject with one value. -/
def caseTest (span : Span) (value : Plan) : Plan :=
  binary span "==" (var span Compiler.hiddenMatch) value

def typeDef (span : Span) (name : Text) (fields : List Text) : Plan :=
  node "TypeDef" span (ins (fields.reverse.map Instruction.string
    ++ [.count fields.length, .withText .buildType name] ++ Fragment.bindTop name .inner))

/-- The statements that bind the imported names, or the whole module under the last element of its
path. -/
def importCode (span : Span) (path : Text) (names : List Text) : Plan :=
  let module := var span (Key.module path)
  if names.isEmpty then assignStmt span (Path.base path) module .inner
  else names.foldl (fun acc name => acc ++ assignStmt span name (member span module name) .inner) empty

/-- The statements that store the exported names, behind the one that creates the dict if this is
the first export. -/
def exportCode (span : Span) (first : Bool) (names : List Text) : Plan :=
  let opening :=
    if first then assignStmt span Key.exports (dict span 0 empty) .inner
    else empty
  names.foldl
    (fun acc name =>
      let target := (var span Key.exports).emit [.string name]
      acc ++ (assign span (var span name) (some target) .nearest).discard)
    opening

/-- Code in the place of an import or export. -/
def linked (span : Span) (kind : String) (code : Plan) : Plan :=
  node kind span (code.emit [.bare .pushNull])

def importStmt (linker : Linker) (span : Span) (path : Text) (names : List Text) : Plan :=
  linked span "Import" <|
    match linker with
    | .absent | .closed => empty
    | .modules => importCode span path names

end Plan

/-!
# Plans of trees

What remains to be known from outside is whether an export before has opened the hidden dict.
-/

/-- A plan that depends on whether exports have been opened, and may open them. -/
abbrev Draft := StateM Bool

def Plan.exportStmt (linker : Linker) (span : Span) (names : List Text) : Draft Plan := do
  match linker with
  | .absent | .closed => pure (linked span "Export" empty)
  | .modules =>
    let opened ← get
    set true
    pure (linked span "Export" (exportCode span (!opened) names))

mutual

def Expr.plan (linker : Linker) : Expr → Draft Plan
  | .number s x => pure (Plan.number s x)
  | .text s t => pure (Plan.text s t)
  | .boolean s b => pure (Plan.boolean s b)
  | .null s => pure (Plan.null s)
  | .var s name => pure (Plan.var s name)
  | .list s items => do
    let parts ← Expr.plansBackward linker items
    pure (Plan.list s items.length parts)
  | .dict s entries => do
    let parts ← Entry.plansBackward linker entries
    pure (Plan.dict s entries.length parts)
  | .binary s op left right => do
    let l ← left.plan linker
    let r ← right.plan linker
    pure (Plan.binary s op l r)
  | .unary s op operand => do
    let x ← operand.plan linker
    pure (Plan.unary s op x)
  | .assign s target value scope => do
    let v ← value.plan linker
    let t ← target.planTarget linker
    pure (Plan.assign s v t scope)
  | .call s callee args => do
    let a ← Expr.plans linker args
    let c ← callee.plan linker
    pure (Plan.call s args.length a c)
  | .member s object name => do
    let o ← object.plan linker
    pure (Plan.member s o name)
  | .index s object key => do
    let o ← object.plan linker
    let k ← key.plan linker
    pure (Plan.index s o k)
  | .func s name params body => do
    let p ← Param.plansBackward linker params
    let b ← body.planBody linker
    let f := Plan.function p params.length Text.empty b
    pure (Plan.node "Func" s (if name.isEmpty then f else f.emit (Fragment.bindTop name .nearest)))
  | .missing => pure Plan.empty

/-- What an assignment writes to, if that can be assigned to. -/
def Expr.planTarget (linker : Linker) : Expr → Draft (Option Plan)
  | .var _ name => pure (some (Plan.varTarget name))
  | .member _ object name => do
    let o ← object.plan linker
    pure (some (o.emit [.string name]))
  | .index _ object key => do
    let o ← object.plan linker
    let k ← key.plan linker
    pure (some (o ++ k))
  | _ => pure none

def Expr.plans (linker : Linker) : List Expr → Draft Plan
  | [] => pure Plan.empty
  | e :: rest => do
    let a ← e.plan linker
    let b ← Expr.plans linker rest
    pure (a ++ b)

/-- Expressions, the last one first. -/
def Expr.plansBackward (linker : Linker) : List Expr → Draft Plan
  | [] => pure Plan.empty
  | e :: rest => do
    let later ← Expr.plansBackward linker rest
    let a ← e.plan linker
    pure (later ++ a)

/-- Pairs of a dict literal, the last one first and each with its value before its key. -/
def Entry.plansBackward (linker : Linker) : List Entry → Draft Plan
  | [] => pure Plan.empty
  | .mk key value :: rest => do
    let later ← Entry.plansBackward linker rest
    let v ← value.plan linker
    let k ← key.plan linker
    pure (later ++ v ++ k)

/-- Parameters, the last one first and each with its guard before its name. -/
def Param.plansBackward (linker : Linker) : List Param → Draft Plan
  | [] => pure Plan.empty
  | .mk name guard :: rest => do
    let later ← Param.plansBackward linker rest
    let g ← Expr.planGuard linker guard
    pure ((later ++ g).emit [.string name])

def Expr.planGuard (linker : Linker) : Option Expr → Draft Plan
  | none => pure (Plan.ins [.bare .pushNull])
  | some e => e.plan linker

/-- The body of a function, which returns null if it does not end with a return. -/
def Block.planBody (linker : Linker) : Block → Draft Plan
  | .mk _ body => do
    let a ← Stmt.plans linker body
    pure (if body.getLast?.any Stmt.isReturn then a else a.emit [.bare .pushNull, .bare .ret])

/-- Statements in order, the value of each dropped. -/
def Stmt.plans (linker : Linker) : List Stmt → Draft Plan
  | [] => pure Plan.empty
  | s :: rest => do
    let a ← s.plan linker
    let b ← Stmt.plans linker rest
    pure (a.discard ++ b)

/-- The statements of a block. -/
def Block.plan (linker : Linker) : Block → Draft Plan
  | .mk _ body => Stmt.plans linker body

/-- A block that may be absent, in its own scope. -/
def Block.planOption (linker : Linker) : Option Block → Draft (Option Plan)
  | none => pure none
  | some b => do
    let a ← b.plan linker
    pure (some (Plan.scope a))

/-- Conditions and bodies of a chain. -/
def Branch.plans (linker : Linker) : List Branch → Draft (List (Plan × Plan))
  | [] => pure []
  | .mk cond body :: rest => do
    let c ← cond.plan linker
    let b ← body.plan linker
    let others ← Branch.plans linker rest
    pure ((c, Plan.scope b) :: others)

/-- Tests and bodies of the cases of a selection. -/
def Case.plans (linker : Linker) : List Case → Draft (List (Plan × Plan))
  | [] => pure []
  | .mk values body :: rest => do
    let test ← Expr.planAlternatives linker none values
    let b ← body.plan linker
    let others ← Case.plans linker rest
    pure ((test.getD (Plan.boolean body.span false), Plan.scope b) :: others)

/-- Whether the subject equals one of the values, tried in order. -/
def Expr.planAlternatives (linker : Linker) (before : Option Plan) :
    List Expr → Draft (Option Plan)
  | [] => pure before
  | v :: rest => do
    let a ← v.plan linker
    let test := Plan.caseTest v.span a
    Expr.planAlternatives linker
      (some (before.elim test fun t => Plan.binary v.span "or" t test)) rest

def Expr.planOption (linker : Linker) : Option Expr → Draft (Option Plan)
  | none => pure none
  | some e => do
    let a ← e.plan linker
    pure (some a)

/-- A statement that may be absent, with its value dropped. -/
def Stmt.planOption (linker : Linker) : Option Stmt → Draft Plan
  | none => pure Plan.empty
  | some s => do
    let a ← s.plan linker
    pure a.discard

def Stmt.plan (linker : Linker) : Stmt → Draft Plan
  | .expr _ x => x.plan linker
  | .block body => do
    let a ← body.plan linker
    pure (Plan.node "Block" body.span ((Plan.scope a).emit [.bare .pushNull]))
  | .cond s branches otherwise => do
    let arms ← Branch.plans linker branches
    let other ← Block.planOption linker otherwise
    pure (Plan.node "If" s (Plan.chain arms other))
  | .whileLoop s cond body => do
    let c ← cond.plan linker
    let b ← body.plan linker
    pure (Plan.node "While" s (Plan.loop Plan.empty true c (Plan.scope b) Plan.empty))
  | .forLoop s init cond step body => do
    let i ← Stmt.planOption linker init
    let c ← Expr.planOption linker cond
    let b ← body.plan linker
    let n ← Stmt.planOption linker step
    pure (Plan.node "For" s (Plan.loop i c.isSome (c.getD Plan.empty) (Plan.scope b) n))
  | .loop s count body => do
    let c ← count.plan linker
    let b ← body.plan linker
    pure (Plan.repeatLoop s c (Plan.scope b))
  | .each s name source body => do
    let x ← source.plan linker
    let b ← body.plan linker
    pure (Plan.eachLoop s name x b)
  | .select s subject cases otherwise => do
    let x ← subject.plan linker
    let tests ← Case.plans linker cases
    let other ← Block.planOption linker otherwise
    pure (Plan.selectChain s x tests other)
  | .impl s method type params body => do
    if type.isEmpty then pure (Plan.ins [.bare .pushNull])
    else
      let p ← Param.plansBackward linker params
      let b ← body.planBody linker
      pure (Plan.node "Impl" s ((Plan.function p params.length type b).emit
        (Fragment.bindTop (Key.join method type) .inner)))
  | .typeDef s name fields => pure (Plan.typeDef s name fields)
  | .ret s value => do
    let v ← Expr.planOption linker value
    pure (Plan.node "Return" s ((v.getD (Plan.ins [.bare .pushNull])).emit [.bare .ret]))
  | .leave s => pure (Plan.node "Break" s (Plan.exit false))
  | .again s => pure (Plan.node "Continue" s (Plan.exit true))
  | .imports s path names => pure (Plan.importStmt linker s path names)
  | .exports s names => Plan.exportStmt linker s names
  | .missing => pure Plan.empty

end

end ScriptEngine
