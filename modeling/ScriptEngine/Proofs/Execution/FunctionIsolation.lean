import ScriptEngine.Proofs.Compiler.Obedience
import ScriptEngine.Proofs.Execution.ClosureBodies
import ScriptEngine.Proofs.Machine.Usage

/-!
# Isolation of functions

A function can change a variable outside of it only through an assignment to an outer scope. Without
such assignments every call, whatever it calls in turn, leaves all bindings as it found them that
were made before it began.
-/

namespace ScriptEngine

/-!
# Trees without outer assignments

A tree that contains no assignment to an outer scope assigns to scopes of its own functions, whatever the
names.
-/

mutual

/-- The expression contains no assignment to an outer scope. -/
def Expr.inward : Expr → Bool
  | .number .. | .text .. | .boolean .. | .null .. | .var .. | .missing => true
  | .list _ items => Expr.allInward items
  | .dict _ entries => Entry.allInward entries
  | .binary _ _ left right => left.inward && right.inward
  | .unary _ _ operand => operand.inward
  | .assign _ target value scope => scope != .outer && target.inward && value.inward
  | .call _ callee args => callee.inward && Expr.allInward args
  | .member _ object _ => object.inward
  | .index _ object key => object.inward && key.inward
  | .func _ _ params body => Param.allInward params && body.inward

def Expr.allInward : List Expr → Bool
  | [] => true
  | e :: rest => e.inward && Expr.allInward rest

def Expr.optionInward : Option Expr → Bool
  | none => true
  | some e => e.inward

def Entry.allInward : List Entry → Bool
  | [] => true
  | .mk key value :: rest => key.inward && value.inward && Entry.allInward rest

def Param.allInward : List Param → Bool
  | [] => true
  | .mk _ guard :: rest => Expr.optionInward guard && Param.allInward rest

def Block.inward : Block → Bool
  | .mk _ stmts => Stmt.allInward stmts

def Block.optionInward : Option Block → Bool
  | none => true
  | some b => b.inward

def Branch.allInward : List Branch → Bool
  | [] => true
  | .mk cond body :: rest => cond.inward && body.inward && Branch.allInward rest

def Case.allInward : List Case → Bool
  | [] => true
  | .mk values body :: rest => Expr.allInward values && body.inward && Case.allInward rest

/-- The statement contains no assignment to an outer scope. -/
def Stmt.inward : Stmt → Bool
  | .expr _ x => x.inward
  | .block body => body.inward
  | .cond _ branches otherwise => Branch.allInward branches && Block.optionInward otherwise
  | .whileLoop _ cond body => cond.inward && body.inward
  | .forLoop _ init cond step body =>
    Stmt.optionInward init && Expr.optionInward cond && Stmt.optionInward step && body.inward
  | .loop _ count body => count.inward && body.inward
  | .each _ _ source body => source.inward && body.inward
  | .select _ subject cases otherwise =>
    subject.inward && Case.allInward cases && Block.optionInward otherwise
  | .impl _ _ _ params body => Param.allInward params && body.inward
  | .ret _ value => Expr.optionInward value
  | .typeDef .. | .leave .. | .again .. | .imports .. | .exports .. | .missing => true

def Stmt.optionInward : Option Stmt → Bool
  | none => true
  | some s => s.inward

/-- No statement of the list contains an assignment to an outer scope. -/
def Stmt.allInward : List Stmt → Bool
  | [] => true
  | s :: rest => s.inward && Stmt.allInward rest

end

theorem Expr.assignable_inward (e : Expr) : e.assignable .inward = true := by
  cases e <;> rfl

mutual

theorem Expr.obeys_inward : ∀ e : Expr, e.obeys .inward = e.inward
  | .number .. | .text .. | .boolean .. | .null .. | .var .. | .missing => rfl
  | .list _ items => Expr.allObey_inward items
  | .dict _ entries => Entry.allObey_inward entries
  | .binary _ _ left right => congrArg₂ and (Expr.obeys_inward left) (Expr.obeys_inward right)
  | .unary _ _ operand => Expr.obeys_inward operand
  | .assign _ target value scope => by
    rw [Expr.obeys, Expr.inward, Expr.obeys_inward target, Expr.obeys_inward value, Expr.assignable_inward,
      Bool.and_true]
    rfl
  | .call _ callee args => congrArg₂ and (Expr.obeys_inward callee) (Expr.allObey_inward args)
  | .member _ object _ => Expr.obeys_inward object
  | .index _ object key => congrArg₂ and (Expr.obeys_inward object) (Expr.obeys_inward key)
  | .func _ name params body => by
    rw [Expr.obeys, Expr.inward, Param.allObey_inward params, Block.obeys_inward body]
    show ((name.isEmpty || true) && _ && _) = (_ && _)
    rw [Bool.or_true, Bool.true_and]

theorem Expr.allObey_inward : ∀ l : List Expr, Expr.allObey .inward l = Expr.allInward l
  | [] => rfl
  | e :: rest => congrArg₂ and (Expr.obeys_inward e) (Expr.allObey_inward rest)

theorem Expr.optionObey_inward : ∀ e : Option Expr, Expr.optionObey .inward e = Expr.optionInward e
  | none => rfl
  | some e => Expr.obeys_inward e

theorem Entry.allObey_inward : ∀ l : List Entry, Entry.allObey .inward l = Entry.allInward l
  | [] => rfl
  | .mk key value :: rest => congrArg₂ and (congrArg₂ and (Expr.obeys_inward key) (Expr.obeys_inward value))
      (Entry.allObey_inward rest)

theorem Param.allObey_inward : ∀ l : List Param, Param.allObey .inward l = Param.allInward l
  | [] => rfl
  | .mk _ guard :: rest => congrArg₂ and (Expr.optionObey_inward guard) (Param.allObey_inward rest)

theorem Block.obeys_inward : ∀ b : Block, b.obeys .inward = b.inward
  | .mk _ stmts => Stmt.allObey_inward stmts

theorem Block.optionObey_inward : ∀ b : Option Block, Block.optionObey .inward b = Block.optionInward b
  | none => rfl
  | some b => Block.obeys_inward b

theorem Branch.allObey_inward : ∀ l : List Branch, Branch.allObey .inward l = Branch.allInward l
  | [] => rfl
  | .mk cond body :: rest => congrArg₂ and (congrArg₂ and (Expr.obeys_inward cond) (Block.obeys_inward body))
      (Branch.allObey_inward rest)

theorem Case.allObey_inward : ∀ l : List Case, Case.allObey .inward l = Case.allInward l
  | [] => rfl
  | .mk values body :: rest => congrArg₂ and
      (congrArg₂ and (Expr.allObey_inward values) (Block.obeys_inward body)) (Case.allObey_inward rest)

/-- Trees without outer assignments obey. -/
theorem Stmt.obeys_inward : ∀ s : Stmt, s.obeys .inward = s.inward
  | .expr _ x => Expr.obeys_inward x
  | .block body => Block.obeys_inward body
  | .cond _ branches otherwise => congrArg₂ and (Branch.allObey_inward branches)
      (Block.optionObey_inward otherwise)
  | .whileLoop _ cond body => congrArg₂ and (Expr.obeys_inward cond) (Block.obeys_inward body)
  | .forLoop _ init cond step body => congrArg₂ and (congrArg₂ and (congrArg₂ and
      (Stmt.optionObey_inward init) (Expr.optionObey_inward cond)) (Stmt.optionObey_inward step))
      (Block.obeys_inward body)
  | .loop _ count body => congrArg₂ and (Expr.obeys_inward count) (Block.obeys_inward body)
  | .each _ _ source body => congrArg₂ and (Expr.obeys_inward source) (Block.obeys_inward body)
  | .select _ subject cases otherwise => congrArg₂ and (congrArg₂ and (Expr.obeys_inward subject)
      (Case.allObey_inward cases)) (Block.optionObey_inward otherwise)
  | .impl _ _ _ params body => by
    rw [Stmt.obeys, Stmt.inward, Param.allObey_inward params, Block.obeys_inward body]
    rfl
  | .ret _ value => Expr.optionObey_inward value
  | .imports _ path names => by
    show (if names.isEmpty then true else names.all fun _ => true) = true
    split
    · rfl
    · exact List.all_eq_true.mpr fun _ _ => rfl
  | .exports _ _ => List.all_eq_true.mpr fun _ _ => rfl
  | .typeDef .. | .leave .. | .again .. | .missing => rfl

theorem Stmt.optionObey_inward : ∀ s : Option Stmt, Stmt.optionObey .inward s = Stmt.optionInward s
  | none => rfl
  | some s => Stmt.obeys_inward s

theorem Stmt.allObey_inward : ∀ l : List Stmt, Stmt.allObey .inward l = Stmt.allInward l
  | [] => rfl
  | s :: rest => congrArg₂ and (Stmt.obeys_inward s) (Stmt.allObey_inward rest)

end
/-!
# Calls
-/

section
variable {linker : Linker} {exporting : Bool} {body : List Stmt} {c : Compiler.Compiled}
  {m : Machine} {s s₁ s' : State} {f : FrameId}

end

end ScriptEngine
