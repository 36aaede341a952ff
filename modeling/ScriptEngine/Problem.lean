import ScriptEngine.Source

/-!
# Problems and traces

A failure has a class. Where it happened, and inside which kind of syntax node, decides its
diagnostic code, the place to point at and how its message begins.
-/

namespace ScriptEngine

/-- Where, relative to the span, a reporter should point. -/
inductive Hint where
  | before
  | here
  | after
  deriving DecidableEq, Inhabited

namespace Hint

def name : Hint → String
  | before => "before"
  | here => "here"
  | after => "after"

end Hint

/-- One diagnostic. The hint is kept as text because reports may carry any. -/
structure Problem where
  code : Text
  span : Option Span
  message : Text
  hint : Text
  deriving DecidableEq, Inhabited

namespace Problem

/-- The diagnostic as one line: place, code and message. -/
def text (p : Problem) : Text :=
  match p.span with
  | none => p.code ++ ": " ++ p.message
  | some s => s.text ++ ": " ++ p.code ++ ": " ++ p.message

end Problem

/-- One entry of a call history. -/
structure TraceFrame where
  name : Text
  span : Option Span
  deriving DecidableEq, Inhabited

/-- A call history, innermost call first. -/
abbrev Trace := Array TraceFrame

namespace Trace

/-- One line of a rendered history. -/
def line (f : TraceFrame) : Text :=
  match f.span with
  | none => "  in " ++ f.name ++ "\n"
  | some s => "  in " ++ f.name ++ " at " ++ s.text ++ "\n"

/-- The history one call a line, the innermost call last. -/
def text (t : Trace) : Text :=
  Text.concat (t.toList.reverse.map line)

end Trace

/-!
## Failures
-/

/-- The class of a runtime failure. A host may raise failures of classes unknown to the engine. -/
inductive Failure where
  | internal
  | unbound
  | arity
  | typeMismatch
  | notCallable
  | notFound
  | outOfRange
  | invalidTarget
  | outsideLoop
  | notBoolean
  | invalidOperand
  | hostCall
  | conversion
  | callDepth
  | other (number : Nat)
  deriving DecidableEq, Inhabited

namespace Failure

/-- The classes of the engine in the order of their numbers. -/
def known : List Failure :=
  [internal, unbound, arity, typeMismatch, notCallable, notFound, outOfRange, invalidTarget,
    outsideLoop, notBoolean, invalidOperand, hostCall, conversion, callDepth]

/-- The number by which a host knows a class. -/
def number : Failure → Nat
  | internal => 0
  | unbound => 1
  | arity => 2
  | typeMismatch => 3
  | notCallable => 4
  | notFound => 5
  | outOfRange => 6
  | invalidTarget => 7
  | outsideLoop => 8
  | notBoolean => 9
  | invalidOperand => 10
  | hostCall => 11
  | conversion => 12
  | callDepth => 13
  | other n => n

/-- The class with a number. -/
def ofNumber (n : Nat) : Failure :=
  (known.find? fun f => f.number == n).getD (other n)

theorem number_ofNumber (n : Nat) : (ofNumber n).number = n := by
  unfold ofNumber
  cases h : known.find? fun f => f.number == n with
  | none => rfl
  | some f => simpa using List.find?_some h

/-- Code and hint of a failure where its context does not matter. -/
def defaultCode : Failure → String × Hint
  | internal => ("RE0000", .here)
  | unbound => ("RE0001", .here)
  | arity => ("RE0002", .here)
  | typeMismatch => ("RE0003", .here)
  | notCallable => ("RE0004", .here)
  | notFound => ("RE0005", .here)
  | outOfRange => ("RE0006", .here)
  | invalidTarget => ("RE0007", .before)
  | outsideLoop => ("RE0008", .here)
  | notBoolean => ("RE0009", .here)
  | invalidOperand => ("RE0010", .after)
  | hostCall => ("RE0011", .here)
  | conversion => ("RE0012", .here)
  | callDepth => ("RE0013", .here)
  | other _ => ("RE0000", .here)

/-- Codes of failures refined by the kind of the syntax node around them. -/
def contextCodes : Failure → List (String × String × Hint)
  | notBoolean =>
    [("If", "RE0020", .after), ("While", "RE0021", .after), ("For", "RE0021", .after),
      ("Each", "RE0021", .after), ("Match", "RE0022", .after), ("Binary", "RE0023", .before),
      ("Unary", "RE0024", .after)]
  | typeMismatch =>
    [("Binary", "RE0030", .here), ("Call", "RE0031", .here), ("Func", "RE0032", .here),
      ("Impl", "RE0032", .here), ("Loop", "RE0034", .after)]
  | arity => [("Binary", "RE0033", .here)]
  | outsideLoop => [("Break", "RE0040", .here), ("Continue", "RE0041", .here)]
  | _ => []

/-- Code and hint of a failure inside a node of the given kind. -/
def code (f : Failure) (kind : Text) : String × Hint :=
  match f.contextCodes.find? fun (k, _) => Text.ofString k == kind with
  | some (_, code) => code
  | none => f.defaultCode

/-- How the message of a condition that is no Boolean begins inside a node of a given kind. -/
def conditionContext : List (String × String) :=
  [("If", "if condition"), ("While", "loop condition"), ("For", "loop condition"),
    ("Each", "iterator step"), ("Match", "match comparison"), ("Binary", "logical operand"),
    ("Unary", "operand of not")]

/-- The message of a failure inside a node of the given kind. -/
def contextMessage (f : Failure) (kind message : Text) : Text :=
  match f with
  | notBoolean =>
    match conditionContext.find? fun (k, _) => Text.ofString k == kind with
    | some (_, context) => context ++ ": " ++ message
    | none => message
  | _ => message

/-- The diagnostic of a failure inside a node of the given kind. -/
def problem (f : Failure) (kind : Text) (span : Option Span) (message : Text) : Problem :=
  let (code, hint) := f.code kind
  ⟨code, span, f.contextMessage kind message, hint.name⟩

end Failure
end ScriptEngine
