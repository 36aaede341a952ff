import ScriptEngine.Program
import ScriptEngine.Syntax

/-!
# Code fragments

The code generated for one node is a fragment: instructions, debug entries relative to its start,
and the loop exits inside it that wait for their loop. Fragments are put together by layout
functions, one for each construct, which compute every distance from the lengths of the parts.
-/

namespace ScriptEngine

/-- The place of a loop exit whose distance is not known yet. `again` says that it goes on with
the next round instead of leaving the loop. -/
structure LoopExit where
  index : Nat
  again : Bool
  deriving DecidableEq, Inhabited

/-- Generated code with everything relative to its start. -/
structure Fragment where
  code : List Instruction
  debug : DebugTable
  exits : List LoopExit
  deriving DecidableEq, Inhabited

namespace Fragment

def empty : Fragment :=
  ⟨[], [], []⟩

/-- Code without debug entries and exits. -/
def ofCode (code : List Instruction) : Fragment :=
  ⟨code, [], []⟩

/-- Number of instructions. -/
def length (f : Fragment) : Nat :=
  f.code.length

/-- Puts a fragment behind another, shifting its entries and exits. -/
def append (f g : Fragment) : Fragment :=
  { code := f.code ++ g.code
    debug := f.debug ++ g.debug.map (·.shift f.length)
    exits := f.exits ++ g.exits.map fun e => { e with index := e.index + f.length } }

instance : Append Fragment :=
  ⟨append⟩

/-- Puts instructions behind a fragment. -/
def emit (f : Fragment) (code : List Instruction) : Fragment :=
  { f with code := f.code ++ code }

/-- Records that the whole fragment belongs to a node. -/
def mark (f : Fragment) (kind : String) (span : Span) : Fragment :=
  if f.code.isEmpty then f
  else { f with debug := f.debug ++ [⟨f.length, f.length, span, kind⟩] }

/-- The jump from an instruction to a target. -/
def jumpTo (index target : Nat) : Instruction :=
  .withDistance .jump ((target : Int) - (index + 1))

/-- Turns every waiting exit into a jump: to `leave`, or to `again` for the next round. -/
def resolve (f : Fragment) (leave again : Nat) : Fragment :=
  { f with
    code := f.exits.foldl
      (fun code e => code.set e.index (jumpTo e.index (if e.again then again else leave))) f.code
    exits := [] }

/-!
## Layouts of expressions
-/

def number (span : Span) (x : Float) : Fragment :=
  (ofCode [.number x]).mark "Number" span

def text (span : Span) (s : Text) : Fragment :=
  (ofCode [.string s]).mark "String" span

def boolean (span : Span) (b : Bool) : Fragment :=
  (ofCode [.withText .pushBoolean (if b then "true" else "false")]).mark "Boolean" span

def null (span : Span) : Fragment :=
  (ofCode [.bare .pushNull]).mark "Null" span

def var (span : Span) (name : Text) : Fragment :=
  (ofCode [.withText .getVar name]).mark "Variable" span

/-- A list literal; the items come last first. -/
def list (span : Span) (count : Nat) (itemsBackward : Fragment) : Fragment :=
  (itemsBackward.emit [.count count, .bare .buildList]).mark "List" span

/-- A dict literal; the pairs come last first, each with its value before its key. -/
def dict (span : Span) (count : Nat) (pairsBackward : Fragment) : Fragment :=
  (pairsBackward.emit [.count count, .bare .buildDict]).mark "Dict" span

/-- A binary operator. `and` and `or` keep the left value and skip the right operand where the
left one decides. -/
def binary (span : Span) (op : Text) (left right : Fragment) : Fragment :=
  let shortCircuit (skip : Operation) : Fragment :=
    left.emit [.withDistance skip (1 + right.length), .bare .pop] ++ right
  let body :=
    if op == "and" then shortCircuit .jumpIfFalsePeek
    else if op == "or" then shortCircuit .jumpIfTruePeek
    else (left ++ right).emit [.count 2, .withText .dispatch op]
  body.mark "Binary" span

def unary (span : Span) (op : Text) (operand : Fragment) : Fragment :=
  let code : List Instruction :=
    if op == "-" then [.bare .negate]
    else if op == "not" then [.bare .not]
    else [.count 1, .withText .dispatch op]
  (operand.emit code).mark "Unary" span

def call (span : Span) (count : Nat) (args callee : Fragment) : Fragment :=
  ((args.emit [.count count] ++ callee).emit [.bare .call]).mark "Call" span

def member (span : Span) (object : Fragment) (name : Text) : Fragment :=
  (object.emit [.string name, .bare .getMember]).mark "Member" span

def index (span : Span) (object key : Fragment) : Fragment :=
  ((object ++ key).emit [.bare .getMember]).mark "Index" span

/-- The assignment instruction of a scope. -/
def assignOp : Scope → Operation
  | .nearest => .assignNearest
  | .inner => .assignLocal
  | .outer => .assignOuter

/-- An assignment: value, then target and name. A missing target leaves only the value. -/
def assign (span : Span) (value : Fragment) (target : Option Fragment) (scope : Scope) :
    Fragment :=
  match target with
  | none => value.mark "Assign" span
  | some t => ((value ++ t).emit [.bare (assignOp scope)]).mark "Assign" span

/-- Target and name of an assignment to a variable. -/
def varTarget (name : Text) : Fragment :=
  ofCode [.bare .pushEmpty, .string name]

/-- Binds the value on the stack to a name, leaving it there. -/
def bindTop (name : Text) (scope : Scope) : List Instruction :=
  [.bare .pushEmpty, .string name, .bare (assignOp scope)]

/-- A function: guards and names of its parameters last first, the optional receiver, their
count, and the body behind the instruction that builds the closure. -/
def function (paramsBackward : Fragment) (count : Nat) (selfType : Text) (body : Fragment) :
    Fragment :=
  let withSelf :=
    if selfType.isEmpty then paramsBackward.emit [.count count]
    else paramsBackward.emit
      [.withText .pushType selfType, .string "self", .count (count + 1)]
  withSelf.emit [.withDistance .buildFunc body.length] ++ body

/-!
## Layouts of statements
-/

/-- A statement: its code and the instruction that drops its value. -/
def discard (f : Fragment) : Fragment :=
  f.emit [.bare .pop]

/-- Statements inside a scope of their own. -/
def inScope (stmts : Fragment) : Fragment :=
  (ofCode [.bare .scopeEnter] ++ stmts).emit [.bare .scopeExit]

/-- Condition and body pairs, tried in order, and what to do if none holds. -/
def arms : List (Fragment × Fragment) → Option Fragment → Fragment
  | [], none => empty
  | [], some other => other
  | [(cond, body)], none => cond.emit [.withDistance .jumpIfFalse body.length] ++ body
  | (cond, body) :: rest, other =>
    let tail := arms rest other
    (cond.emit [.withDistance .jumpIfFalse (body.length + 1)] ++ body).emit
      [.withDistance .jump tail.length] ++ tail

/-- A chain of conditions, which leaves a null. -/
def chain (branches : List (Fragment × Fragment)) (otherwise : Option Fragment) : Fragment :=
  (arms branches otherwise).emit [.bare .pushNull]

/-- Every loop: inside a scope, `init`, then rounds of condition, body and step. Exits in the body
belong to this loop; those in `init` and `step` belong to a loop around it. -/
def loop (init : Fragment) (cond : Option Fragment) (body step : Fragment) : Fragment :=
  let rest := body.length + step.length + 1
  let test :=
    match cond with
    | none => empty
    | some c => c.emit [.withDistance .jumpIfFalse rest]
  let round := test ++ body.resolve rest body.length ++ step
  (ofCode [.bare .scopeEnter] ++ init ++ round).emit
    [.withDistance .jump (-(round.length + 1 : Int)), .bare .scopeExit, .bare .pushNull]

/-- A loop exit. Inside a loop it closes `scopes` scopes and waits for the loop's layout; outside
it stays as it is. -/
def exit (again : Bool) (scopes : Option Nat) : Fragment :=
  let op : Instruction := .bare (if again then .again else .leave)
  match scopes with
  | none => ofCode [op]
  | some n => ⟨List.replicate n (.bare .scopeExit) ++ [op], [], [⟨n, again⟩]⟩

end Fragment
end ScriptEngine
