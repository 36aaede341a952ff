import ScriptEngine.Source

/-!
# Syntax trees

Programs arrive as trees of statements and expressions, every node with its span. A place where a
node is required may hold none; such trees cannot be compiled.
-/

namespace ScriptEngine

/-- How an assignment binds a plain name. -/
inductive Scope where
  /-- The nearest binding in the current function, else a new one in the current scope. -/
  | nearest
  /-- Always the current scope. -/
  | inner
  /-- Beyond the current function. -/
  | outer
  deriving DecidableEq, Inhabited

mutual

/-- Expressions. -/
inductive Expr where
  | number (span : Span) (value : Float)
  | text (span : Span) (value : Text)
  | boolean (span : Span) (value : Bool)
  | null (span : Span)
  | var (span : Span) (name : Text)
  | list (span : Span) (items : List Expr)
  | dict (span : Span) (entries : List Entry)
  | binary (span : Span) (op : Text) (left right : Expr)
  | unary (span : Span) (op : Text) (operand : Expr)
  | assign (span : Span) (target value : Expr) (scope : Scope)
  | call (span : Span) (callee : Expr) (args : List Expr)
  | member (span : Span) (object : Expr) (name : Text)
  | index (span : Span) (object key : Expr)
  | func (span : Span) (name : Text) (params : List Param) (body : Block)
  | missing

/-- One pair of a dict literal. -/
inductive Entry where
  | mk (key value : Expr)

/-- A parameter with an optional guard. -/
inductive Param where
  | mk (name : Text) (guard : Option Expr)

/-- Statements in a scope of their own. -/
inductive Block where
  | mk (span : Span) (stmts : List Stmt)

/-- A condition and what to do under it. -/
inductive Branch where
  | mk (cond : Expr) (body : Block)

/-- Values to compare with and what to do if one is equal. -/
inductive Case where
  | mk (values : List Expr) (body : Block)

/-- Statements. -/
inductive Stmt where
  | expr (span : Span) (x : Expr)
  | block (body : Block)
  | cond (span : Span) (branches : List Branch) (otherwise : Option Block)
  | whileLoop (span : Span) (cond : Expr) (body : Block)
  | forLoop (span : Span) (init : Option Stmt) (cond : Option Expr) (step : Option Stmt)
      (body : Block)
  | loop (span : Span) (count : Expr) (body : Block)
  | each (span : Span) (name : Text) (source : Expr) (body : Block)
  | select (span : Span) (subject : Expr) (cases : List Case) (otherwise : Option Block)
  | impl (span : Span) (method type : Text) (params : List Param) (body : Block)
  | typeDef (span : Span) (name : Text) (fields : List Text)
  | ret (span : Span) (value : Option Expr)
  | leave (span : Span)
  | again (span : Span)
  | imports (span : Span) (path : Text) (names : List Text)
  | exports (span : Span) (names : List Text)
  | missing

end

instance : Inhabited Expr :=
  ⟨.missing⟩

instance : Inhabited Stmt :=
  ⟨.missing⟩

instance : Inhabited Block :=
  ⟨.mk Span.zero []⟩

namespace Block

def span : Block → Span
  | .mk s _ => s

def stmts : Block → List Stmt
  | .mk _ l => l

end Block

namespace Param

def name : Param → Text
  | .mk n _ => n

end Param

namespace Expr

/-- The kind of a node, as debug tables record it. -/
def kind : Expr → String
  | number .. => "Number"
  | text .. => "String"
  | boolean .. => "Boolean"
  | null .. => "Null"
  | var .. => "Variable"
  | list .. => "List"
  | dict .. => "Dict"
  | binary .. => "Binary"
  | unary .. => "Unary"
  | assign .. => "Assign"
  | call .. => "Call"
  | member .. => "Member"
  | index .. => "Index"
  | func .. => "Func"
  | missing => ""

def span : Expr → Span
  | number s _ | text s _ | boolean s _ | null s | var s _ | list s _ | dict s _
  | binary s .. | unary s .. | assign s .. | call s .. | member s .. | index s .. | func s .. => s
  | missing => Span.zero

end Expr

namespace Stmt

/-- The kind of a node, as debug tables record it. -/
def kind : Stmt → String
  | expr .. => "ExprStmt"
  | block .. => "Block"
  | cond .. => "If"
  | whileLoop .. => "While"
  | forLoop .. => "For"
  | loop .. => "Loop"
  | each .. => "Each"
  | select .. => "Match"
  | impl .. => "Impl"
  | typeDef .. => "TypeDef"
  | ret .. => "Return"
  | leave .. => "Break"
  | again .. => "Continue"
  | imports .. => "Import"
  | exports .. => "Export"
  | missing => ""

def span : Stmt → Span
  | block b => b.span
  | expr s _ | cond s .. | whileLoop s .. | forLoop s .. | loop s .. | each s .. | select s ..
  | impl s .. | typeDef s .. | ret s _ | leave s | again s | imports s .. | exports s _ => s
  | missing => Span.zero

/-- Whether a statement is a return. -/
def isReturn : Stmt → Bool
  | ret .. => true
  | _ => false

end Stmt
end ScriptEngine
