import ScriptEngine.Compiler.Fragment
import ScriptEngine.Key
import ScriptEngine.Path
import ScriptEngine.Problem

/-!
# Code generation

A list of statements is compiled by walking the tree once, generating the parts of each node in a
fixed order and laying them out as fragments. Ill-formed nodes are reported as problems and
compilation goes on; a tree that lacks a required node is refused.
-/

namespace ScriptEngine

/-- Where imports and exports lead. -/
inductive Linker where
  /-- There are no modules. -/
  | absent
  /-- Every request is refused. -/
  | closed
  /-- Modules are dicts bound by the host, and exports go to a hidden dict. -/
  | modules
  deriving DecidableEq, Inhabited

namespace Compiler

/-- Why a tree is refused. -/
inductive Refusal where
  | missingStatement
  | missingExpression
  | missingTarget
  deriving DecidableEq

namespace Refusal

def message : Refusal → String
  | missingStatement => "compiler: unhandled statement <nil>"
  | missingExpression => "compiler: unhandled expression <nil>"
  | missingTarget => "runtime error: invalid memory address or nil pointer dereference"

end Refusal

/-- What is gathered on the way: the problems so far, and whether an export has opened the hidden
dict. -/
structure Progress where
  problems : Array Problem
  exporting : Bool
  deriving Inhabited

/-- Generation keeps its progress also when it refuses a tree. -/
abbrev Gen := EStateM Refusal Progress

/-- Reports a problem at a span. -/
def report (code : String) (span : Span) (message : Text) : Gen Unit :=
  modify fun p =>
    { p with problems := p.problems.push ⟨code, some span, message, Hint.here.name⟩ }

/-- Where a statement stands: how many scopes of its function are open, and how many were open
inside the scope of the innermost loop around it. -/
structure Place where
  depth : Nat
  loop : Option Nat

namespace Place

/-- The start of a program or function. -/
def top : Place :=
  ⟨0, none⟩

/-- Inside one more scope. -/
def inScope (p : Place) : Place :=
  { p with depth := p.depth + 1 }

/-- The statements of a loop's body: inside the loop's scope and the body's own. -/
def inLoop (p : Place) : Place :=
  ⟨p.depth + 2, some (p.depth + 1)⟩

/-- How many scopes an exit closes, if it stands in a loop. -/
def closes (p : Place) : Option Nat :=
  p.loop.map (p.depth - ·)

end Place

/-!
## Hidden bindings

Names beginning with a dollar sign cannot be written in a program.
-/

def hiddenCount : Text := "$count"

def hiddenIndex : Text := "$i"

def hiddenIter : Text := "$it"

def hiddenStep : Text := "$step"

def hiddenMatch : Text := "$match"

/-- Reports every name that repeats an earlier one. -/
def checkDistinct (message : Text → Text) (code : String) (span : Span) :
    List Text → List Text → Gen Unit
  | _, [] => pure ()
  | seen, name :: rest => do
    if seen.contains name then report code span (message name)
    checkDistinct message code span (name :: seen) rest

/-- Checks the parameter names of a function; `self` is taken where there is a receiver. -/
def checkParams (span : Span) (selfType : Text) (names : List Text) : Gen Unit :=
  checkDistinct (fun name => "duplicate parameter " ++ name.quoted) "CE0001" span
    (if selfType.isEmpty then [] else ["self"]) names

/-- Checks name and fields of a type definition. -/
def checkTypeDef (span : Span) (name : Text) (fields : List Text) : Gen Unit := do
  if Key.isBuiltinType name then
    report "CE0007" span ("type " ++ name ++ " redefines a built-in type")
  checkDistinct (fun f => "duplicate field " ++ f.quoted ++ " in type " ++ name) "CE0006" span []
    fields

/-- A type definition. -/
def typeDefCode (span : Span) (name : Text) (fields : List Text) : Fragment :=
  (Fragment.ofCode (fields.reverse.map Instruction.string
    ++ [.count fields.length, .withText .buildType name]
    ++ Fragment.bindTop name .inner)).mark "TypeDef" span

/-!
## Synthesized code

Several statements stand for others: their parts are put together here from fragments.
-/

/-- The statement `name = value`. -/
def assignStmt (span : Span) (name : Text) (value : Fragment) (scope : Scope) : Fragment :=
  (Fragment.assign span value (some (Fragment.varTarget name)) scope).discard

/-- The statement `$step = $it.next()`. -/
def nextStep (span : Span) (scope : Scope) : Fragment :=
  assignStmt span hiddenStep
    (Fragment.call span 0 Fragment.empty
      (Fragment.member span (Fragment.var span hiddenIter) "next"))
    scope

/-- The expression `$step[n]`. -/
def stepPart (span : Span) (n : Nat) : Fragment :=
  Fragment.index span (Fragment.var span hiddenStep)
    (Fragment.number span (Number.ofNat n))

/-- A loop over the iterator protocol:
`for $it = source.iter(), $step = $it.next(); $step[2]; $step = $it.next() { name = $step[1]; … }`. -/
def eachLoop (span : Span) (name : Text) (source stmts : Fragment) : Fragment :=
  let init := assignStmt span hiddenIter
    (Fragment.call span 0 Fragment.empty (Fragment.member span source "iter")) .inner
  let bind := assignStmt span name (stepPart span 1) .inner
  (Fragment.loop (init ++ nextStep span .inner) (some (stepPart span 2))
    (Fragment.inScope (bind ++ stmts)) (nextStep span .nearest)).mark "Each" span

/-- A loop that counts hidden rounds up to a number evaluated once. -/
def repeatLoop (span : Span) (count body : Fragment) : Fragment :=
  let init := count.emit
    (Fragment.bindTop hiddenCount .inner ++ [.bare .pop, .count 0]
      ++ Fragment.bindTop hiddenIndex .inner ++ [.bare .pop])
  let cond := Fragment.ofCode
    [.withText .getVar hiddenIndex, .withText .getVar hiddenCount, .count 2,
      .withText .dispatch "<"]
  (Fragment.loop init (some cond) body
    (Fragment.ofCode [.withText .increment hiddenIndex])).mark "Loop" span

/-- The subject is kept under a hidden name while the cases are tried. -/
def selectChain (span : Span) (subject : Fragment) (cases : List (Fragment × Fragment))
    (otherwise : Option Fragment) : Fragment :=
  let head := Fragment.ofCode [.bare .scopeEnter] ++
    subject.emit (Fragment.bindTop hiddenMatch .inner ++ [.bare .pop])
  let choice :=
    if cases.isEmpty then otherwise.getD Fragment.empty
    else (Fragment.chain cases otherwise).discard
  ((head ++ choice).emit [.bare .scopeExit, .bare .pushNull]).mark "Match" span

/-- Compares the subject with one value. -/
def caseTest (span : Span) (value : Fragment) : Fragment :=
  Fragment.binary span "==" (Fragment.var span hiddenMatch) value

/-- The statements that bind the imported names, or the whole module under the last element of its
path. -/
def importCode (span : Span) (path : Text) (names : List Text) : Fragment :=
  let module := Fragment.var span (Key.module path)
  if names.isEmpty then assignStmt span (Path.base path) module .inner
  else names.foldl
    (fun acc name => acc ++ assignStmt span name (Fragment.member span module name) .inner)
    Fragment.empty

/-- The statements that store the exported names, behind the one that creates the dict if this is
the first export. -/
def exportCode (span : Span) (first : Bool) (names : List Text) : Fragment :=
  let opening :=
    if first then assignStmt span Key.exports (Fragment.dict span 0 Fragment.empty) .inner
    else Fragment.empty
  names.foldl
    (fun acc name =>
      let target := (Fragment.var span Key.exports).emit [.string name]
      acc ++ (Fragment.assign span (Fragment.var span name) (some target) .nearest).discard)
    opening

/-- Code in the place of an import or export. -/
def linked (span : Span) (kind : String) (code : Fragment) : Fragment :=
  (code.emit [.bare .pushNull]).mark kind span

/-- An import through a linker. -/
def importStmt (linker : Linker) (span : Span) (path : Text) (names : List Text) :
    Gen Fragment := do
  match linker with
  | .absent =>
    report "CE0003" span "import is not supported without a module linker"
    pure (linked span "Import" Fragment.empty)
  | .closed =>
    report "CE0004" span ("import failed: unknown module " ++ path.quoted)
    pure (linked span "Import" Fragment.empty)
  | .modules => pure (linked span "Import" (importCode span path names))

/-- An export through a linker; the first one opens the hidden dict. -/
def exportStmt (linker : Linker) (span : Span) (names : List Text) : Gen Fragment := do
  match linker with
  | .absent =>
    report "CE0003" span "export is not supported without a module linker"
    pure (linked span "Export" Fragment.empty)
  | .closed =>
    report "CE0004" span "export failed: exports are closed"
    pure (linked span "Export" Fragment.empty)
  | .modules =>
    let progress ← get
    set { progress with exporting := true }
    pure (linked span "Export" (exportCode span (!progress.exporting) names))

/-- Whether a value of some case is missing. -/
def lacksValue (cases : List Case) : Bool :=
  cases.any fun
    | .mk values _ => values.any fun
      | .missing => true
      | _ => false

/-!
## The walk
-/

mutual

/-- Code that leaves exactly one value. -/
def expr (linker : Linker) : Expr → Gen Fragment
  | .number s x => pure (Fragment.number s x)
  | .text s t => pure (Fragment.text s t)
  | .boolean s b => pure (Fragment.boolean s b)
  | .null s => pure (Fragment.null s)
  | .var s name => pure (Fragment.var s name)
  | .list s items => do
    let parts ← exprsBackward linker items
    pure (Fragment.list s items.length parts)
  | .dict s entries => do
    let parts ← entriesBackward linker entries
    pure (Fragment.dict s entries.length parts)
  | .binary s op left right => do
    let l ← expr linker left
    let r ← expr linker right
    pure (Fragment.binary s op l r)
  | .unary s op operand => do
    let x ← expr linker operand
    pure (Fragment.unary s op x)
  | .assign s target value scope => do
    let v ← expr linker value
    let t ← assignTarget linker target
    pure (Fragment.assign s v t scope)
  | .call s callee args => do
    let a ← exprs linker args
    let c ← expr linker callee
    pure (Fragment.call s args.length a c)
  | .member s object name => do
    let o ← expr linker object
    pure (Fragment.member s o name)
  | .index s object key => do
    let o ← expr linker object
    let k ← expr linker key
    pure (Fragment.index s o k)
  | .func s name params body => do
    checkParams s Text.empty (params.map Param.name)
    let p ← paramsBackward linker params
    let b ← functionBody linker body
    let f := Fragment.function p params.length Text.empty b
    let named := if name.isEmpty then f else f.emit (Fragment.bindTop name .nearest)
    pure (named.mark "Func" s)
  | .missing => throw .missingExpression

/-- What an assignment writes to: object and key of a container, or a name. -/
def assignTarget (linker : Linker) : Expr → Gen (Option Fragment)
  | .var _ name => pure (some (Fragment.varTarget name))
  | .member _ object name => do
    let o ← expr linker object
    pure (some (o.emit [.string name]))
  | .index _ object key => do
    let o ← expr linker object
    let k ← expr linker key
    pure (some (o ++ k))
  | .missing => throw .missingTarget
  | other => do
    report "CE0005" other.span ("cannot assign to " ++ other.kind)
    pure none

/-- Expressions in order. -/
def exprs (linker : Linker) : List Expr → Gen Fragment
  | [] => pure Fragment.empty
  | e :: rest => do
    let f ← expr linker e
    let g ← exprs linker rest
    pure (f ++ g)

/-- Expressions, the last one first. -/
def exprsBackward (linker : Linker) : List Expr → Gen Fragment
  | [] => pure Fragment.empty
  | e :: rest => do
    let later ← exprsBackward linker rest
    let f ← expr linker e
    pure (later ++ f)

/-- Pairs of a dict literal, the last one first and each with its value before its key. -/
def entriesBackward (linker : Linker) : List Entry → Gen Fragment
  | [] => pure Fragment.empty
  | .mk key value :: rest => do
    let later ← entriesBackward linker rest
    let v ← expr linker value
    let k ← expr linker key
    pure (later ++ v ++ k)

/-- Parameters, the last one first and each with its guard before its name. -/
def paramsBackward (linker : Linker) : List Param → Gen Fragment
  | [] => pure Fragment.empty
  | .mk name guard :: rest => do
    let later ← paramsBackward linker rest
    let g ← guardExpr linker guard
    pure ((later ++ g).emit [.string name])

/-- The guard of a parameter, null if there is none. -/
def guardExpr (linker : Linker) : Option Expr → Gen Fragment
  | none => pure (Fragment.ofCode [.bare .pushNull])
  | some e => expr linker e

/-- The body of a function, which returns null if it does not end with a return. Loops around the
function are out of reach. -/
def functionBody (linker : Linker) : Block → Gen Fragment
  | .mk _ body => do
    let f ← stmts linker Place.top body
    match body.getLast? with
    | some last =>
      pure (if last.isReturn then f else f.emit [.bare .pushNull, .bare .ret])
    | none => pure (f.emit [.bare .pushNull, .bare .ret])

/-- Statements in order. -/
def stmts (linker : Linker) (place : Place) : List Stmt → Gen Fragment
  | [] => pure Fragment.empty
  | s :: rest => do
    let f ← stmt linker place s
    let g ← stmts linker place rest
    pure (f.discard ++ g)

/-- The statements of a block, without the instructions of its scope. -/
def blockStmts (linker : Linker) (place : Place) : Block → Gen Fragment
  | .mk _ body => stmts linker place body

/-- A block inside its own scope. -/
def block (linker : Linker) (place : Place) : Block → Gen Fragment
  | .mk _ body => do
    let f ← stmts linker place.inScope body
    pure (Fragment.inScope f)

/-- A block that may be absent. -/
def blockOption (linker : Linker) (place : Place) : Option Block → Gen (Option Fragment)
  | none => pure none
  | some b => do
    let f ← block linker place b
    pure (some f)

/-- Conditions and bodies of a chain. -/
def branches (linker : Linker) (place : Place) :
    List Branch → Gen (List (Fragment × Fragment))
  | [] => pure []
  | .mk cond body :: rest => do
    let c ← expr linker cond
    let b ← block linker place body
    let others ← branches linker place rest
    pure ((c, b) :: others)

/-- Tests and bodies of the cases of a selection. -/
def cases (linker : Linker) (place : Place) : List Case → Gen (List (Fragment × Fragment))
  | [] => pure []
  | .mk values body :: rest => do
    let test ← alternatives linker none values
    let b ← block linker place body
    let others ← cases linker place rest
    pure ((test.getD (Fragment.boolean body.span false), b) :: others)

/-- Whether the subject equals one of the values, tried in order. -/
def alternatives (linker : Linker) (before : Option Fragment) :
    List Expr → Gen (Option Fragment)
  | [] => pure before
  | v :: rest => do
    let f ← expr linker v
    let test := caseTest v.span f
    let both :=
      match before with
      | none => test
      | some t => Fragment.binary v.span "or" t test
    alternatives linker (some both) rest

/-- An expression that may be absent. -/
def exprOption (linker : Linker) : Option Expr → Gen (Option Fragment)
  | none => pure none
  | some e => do
    let f ← expr linker e
    pure (some f)

/-- A statement that may be absent, with its value dropped. -/
def stmtOption (linker : Linker) (place : Place) : Option Stmt → Gen Fragment
  | none => pure Fragment.empty
  | some s => do
    let f ← stmt linker place s
    pure f.discard

/-- A statement, leaving one value. -/
def stmt (linker : Linker) (place : Place) : Stmt → Gen Fragment
  | .expr _ x => expr linker x
  | .block body => do
    let f ← block linker place body
    pure ((f.emit [.bare .pushNull]).mark "Block" body.span)
  | .cond s bs otherwise => do
    let arms ← branches linker place bs
    let other ← blockOption linker place otherwise
    pure ((Fragment.chain arms other).mark "If" s)
  | .whileLoop s cond body => do
    let c ← expr linker cond
    let b ← blockStmts linker place.inLoop body
    pure ((Fragment.loop Fragment.empty (some c) (Fragment.inScope b) Fragment.empty).mark
      "While" s)
  | .forLoop s init cond step body => do
    let i ← stmtOption linker place.inScope init
    let c ← exprOption linker cond
    let b ← blockStmts linker place.inLoop body
    let n ← stmtOption linker place.inScope step
    pure ((Fragment.loop i c (Fragment.inScope b) n).mark "For" s)
  | .loop s count body => do
    let c ← expr linker count
    let b ← blockStmts linker place.inLoop body
    pure (repeatLoop s c (Fragment.inScope b))
  | .each s name source body => do
    let x ← expr linker source
    let b ← blockStmts linker place.inLoop body
    pure (eachLoop s name x b)
  | .select s subject cs otherwise => do
    let x ← expr linker subject
    if lacksValue cs then throw .missingTarget
    let tests ← cases linker place.inScope cs
    let other ← blockOption linker place.inScope otherwise
    pure (selectChain s x tests other)
  | .impl s method type params body => do
    if type.isEmpty then
      report "CE0002" s ("impl " ++ method ++ " has no target type")
      pure (Fragment.ofCode [.bare .pushNull])
    else
      checkParams s type (params.map Param.name)
      let p ← paramsBackward linker params
      let b ← functionBody linker body
      let f := Fragment.function p params.length type b
      pure ((f.emit (Fragment.bindTop (Key.join method type) .inner)).mark "Impl" s)
  | .typeDef s name fields => do
    checkTypeDef s name fields
    pure (typeDefCode s name fields)
  | .ret s value => do
    let v ← exprOption linker value
    let f := v.getD (Fragment.ofCode [.bare .pushNull])
    pure ((f.emit [.bare .ret]).mark "Return" s)
  | .leave s => pure ((Fragment.exit false place.closes).mark "Break" s)
  | .again s => pure ((Fragment.exit true place.closes).mark "Continue" s)
  | .imports s path names => importStmt linker s path names
  | .exports s names => exportStmt linker s names
  | .missing => throw .missingStatement

end

/-- A compiled program and the problems met on the way. -/
structure Compiled where
  program : Program
  problems : List Problem
  deriving Inhabited

/-- What compiling some statements ended with, and whether the linker's exports are open after
it. -/
structure Outcome where
  result : Except Refusal Compiled
  exporting : Bool

/-- Compiles the statements of a program. -/
def compile (linker : Linker) (exporting : Bool) (body : List Stmt) : Outcome :=
  match (stmts linker Place.top body).run ⟨#[], exporting⟩ with
  | .ok f p => ⟨.ok ⟨⟨f.code.toArray, f.debug⟩, p.problems.toList⟩, p.exporting⟩
  | .error e p => ⟨.error e, p.exporting⟩

/-- What the compiler tells the journal: each problem, then a summary. -/
def Compiled.messages (c : Compiled) (statements : Nat) : List Text :=
  (c.problems.map fun p => Text.ofString "compile problem: " ++ p.text) ++
    ["compiled " ++ Text.ofNat statements ++ " statements into " ++ Text.ofNat c.program.size
      ++ " instructions, " ++ Text.ofNat c.problems.length ++ " problems"]

end Compiler
end ScriptEngine
