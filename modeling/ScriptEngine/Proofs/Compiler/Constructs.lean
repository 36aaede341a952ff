import ScriptEngine.Compiler.Generate
import ScriptEngine.Proofs.Compiler.Fitting

/-!
# The layouts that constructs keep

Expressions leave one value and statements leave one value, whatever the layout in front of them;
blocks, alternatives and loops leave the scopes as they were. One lemma for each layout function of
the compiler, about fragments that take the layouts one expects of its parts.
-/

namespace ScriptEngine
namespace Fragment
namespace Takes

variable {f g : Fragment} {a b c : Layout} {x : Option Layout}

open Instruction

/-!
# Expressions

Containers, calls and operators take the values that a count on top announces.
-/

theorem constant {ins : Instruction} {v : Value} (hins : ins.Stands (.push v)) (hv : v.Plain) :
    (ofCode [ins]).Takes a (a.push .value) x :=
  one hins (.value hv)

theorem number (span : Span) (y : Float) : (Fragment.number span y).Takes a (a.push .value) x :=
  (constant (stands_number y) trivial).mark a.gains_push (absurd · (by decide)) _

theorem text (span : Span) (s : Text) : (Fragment.text span s).Takes a (a.push .value) x :=
  (constant (stands_string s) trivial).mark a.gains_push (absurd · (by decide)) _

theorem boolean (span : Span) (y : Bool) : (Fragment.boolean span y).Takes a (a.push .value) x :=
  (constant (stands_boolean y) trivial).mark a.gains_push (absurd · (by decide)) _

theorem pushNull : (ofCode [bare .pushNull]).Takes a (a.push .value) x :=
  constant (stands_bare rfl) trivial

theorem null (span : Span) : (Fragment.null span).Takes a (a.push .value) x :=
  pushNull.mark a.gains_push (absurd · (by decide)) _

theorem var (span : Span) (name : Text) : (Fragment.var span name).Takes a (a.push .value) x :=
  (one (stands_getVar name) .getVar).mark a.gains_push (absurd · (by decide)) _

/-- A count and the instruction that uses it. -/
theorem counted {ins : Instruction} {op : Op} {n : Nat} (hn : n ≤ Slot.limit)
    (hins : ins.Stands op) (hflow : op.Flow (a.push (.count n)) (.next b)) :
    (ofCode [.count n, ins]).Takes a b x :=
  cons (stands_count n) (.count hn) (one hins hflow)

theorem list {n : Nat} (hf : f.Takes a (a.pushAll (.replicate n .value)) x) (hn : n ≤ Slot.limit)
    (span : Span) : (Fragment.list span n f).Takes a (a.push .value) x :=
  (hf.emit (counted hn (stands_bare rfl) (.buildList n))).mark a.gains_push (absurd · (by decide)) _

theorem dict {n : Nat} (hf : f.Takes a (a.pushAll (.replicate (2 * n) .value)) x)
    (hn : n ≤ Slot.limit) (span : Span) : (Fragment.dict span n f).Takes a (a.push .value) x :=
  (hf.emit (counted hn (stands_bare rfl) (.buildDict n))).mark a.gains_push (absurd · (by decide)) _

/-- The right operand of `and` and `or`, which may be skipped with the left value kept. -/
theorem shortCircuit {skip : Operation} {expected : Bool}
    (hskip : ∀ d, (withDistance skip d).Stands (.jumpPeek expected d))
    (hf : f.Takes a (a.push .value) x) (hg : g.Takes a (a.push .value) x) :
    (f.emit [.withDistance skip (1 + g.length), .bare .pop] ++ g).Takes a (a.push .value) x := by
  rw [emit_eq, ofCode_cons, append_assoc, append_assoc]
  have hright : (ofCode [.bare .pop] ++ g).Takes (a.push .value) (a.push .value) x :=
    (one (stands_bare rfl) .pop).append hg
  refine hf.append (Takes.skip (hskip _) .jumpPeek hright ?_)
  rw [length_append, length_ofCode, List.length_singleton]
  omega

theorem binary (hf : f.Takes a (a.push .value) x) (hg : g.Takes a (a.push .value) x)
    (hdispatch : g.Takes (a.push .value) ((a.push .value).push .value) x) (span : Span)
    (op : Text) : (Fragment.binary span op f g).Takes a (a.push .value) x := by
  refine Takes.mark ?_ a.gains_push (absurd · (by decide)) _
  split
  · exact shortCircuit stands_jumpIfFalsePeek hf hg
  split
  · exact shortCircuit stands_jumpIfTruePeek hf hg
  · exact (hf.append hdispatch).emit
      (counted (by decide) (stands_dispatch op) (.dispatch 1))

theorem unary (hf : f.Takes a (a.push .value) x) (span : Span) (op : Text) :
    (Fragment.unary span op f).Takes a (a.push .value) x := by
  refine (hf.emit ?_).mark a.gains_push (absurd · (by decide)) _
  split
  · exact one (stands_bare rfl) .negate
  split
  · exact one (stands_bare rfl) .not
  · exact counted (by decide) (stands_dispatch op) (.dispatch 0)

theorem call {n : Nat} (hf : f.Takes a (a.pushAll (.replicate n .value)) x) (hn : n ≤ Slot.limit)
    (hg : g.Takes ((a.pushAll (.replicate n .value)).push (.count n))
      (((a.pushAll (.replicate n .value)).push (.count n)).push .value) x) (span : Span) :
    (Fragment.call span n f g).Takes a (a.push .value) x := by
  have hcount : (ofCode [.count n]).Takes (a.pushAll (.replicate n .value))
      ((a.pushAll (.replicate n .value)).push (.count n)) x := one (stands_count n) (.count hn)
  exact (((hf.emit hcount).append hg).emit (one (stands_bare rfl) (.call n))).mark a.gains_push (absurd · (by decide)) _

theorem member (hf : f.Takes a (a.push .value) x) (span : Span) (name : Text) :
    (Fragment.member span f name).Takes a (a.push .value) x :=
  (hf.emit (cons (stands_string name) (.value trivial)
    (one (stands_bare rfl) .getMember))).mark a.gains_push (absurd · (by decide)) _

theorem index (hf : f.Takes a (a.push .value) x)
    (hg : g.Takes (a.push .value) ((a.push .value).push .value) x) (span : Span) :
    (Fragment.index span f g).Takes a (a.push .value) x :=
  ((hf.append hg).emit (one (stands_bare rfl) .getMember)).mark a.gains_push (absurd · (by decide)) _

theorem stands_assign (scope : Scope) : (bare (assignOp scope)).Stands (.assign scope) := by
  cases scope <;> exact stands_bare rfl

/-- What an assignment writes to: a name behind the marker, or a container and a key. -/
def Targets (f : Fragment) (a : Layout) (x : Option Layout) : Prop :=
  f.Takes a ((a.push .marker).push .name) x ∨ f.Takes a ((a.push .value).push .value) x

theorem targets_var (name : Text) : Targets (varTarget name) a x :=
  Or.inl (cons (stands_bare rfl) .marker
    (one (stands_string name) (.name name)))

theorem targets_member (hf : f.Takes a (a.push .value) x) (name : Text) :
    Targets (f.emit [.string name]) a x :=
  Or.inr (hf.emit (constant (stands_string name) trivial))

theorem assign (hf : f.Takes a (a.push .value) x) (hg : Targets g (a.push .value) x) (span : Span)
    (scope : Scope) : (Fragment.assign span f (some g) scope).Takes a (a.push .value) x := by
  refine Takes.mark ?_ a.gains_push (absurd · (by decide)) _
  rcases hg with hname | hmember
  · exact (hf.append hname).emit (one (stands_assign scope) .assignName)
  · exact (hf.append hmember).emit (one (stands_assign scope) .assignMember)

theorem bindTop (name : Text) (scope : Scope) :
    (ofCode (Fragment.bindTop name scope)).Takes (a.push .value) (a.push .value) x :=
  cons (stands_bare rfl) .marker
    (cons (stands_string name) (.name name)
      (one (stands_assign scope) .assignName))

/-- A function whose body runs in a layout of its own. -/
theorem function {n : Nat} {selfType : Text} (hf : f.Takes a (a.pushAll (Layout.params n)) x)
    (hn : n + 1 ≤ Slot.limit) (hg : g.Takes .entry (a.push .value) none) :
    (Fragment.function f n selfType g).Takes a (a.push .value) x := by
  unfold Fragment.function
  dsimp only
  rw [emit_eq, append_assoc]
  split
  · have hcount : (ofCode [.count n]).Takes (a.pushAll (Layout.params n))
        ((a.pushAll (Layout.params n)).push (.count n)) x :=
      one (stands_count n) (.count (Nat.le_of_succ_le hn))
    exact (hf.emit hcount).append (build (stands_buildFunc _) (.buildFunc n) hg rfl)
  · have hself : (ofCode [.withText .pushType selfType, .string "self", .count (n + 1)]).Takes
        (a.pushAll (Layout.params n))
        ((a.pushAll (Layout.params (n + 1))).push (.count (n + 1))) x :=
      cons (stands_pushType selfType) (.value trivial)
        (cons (stands_string "self") (.name _)
          (one (stands_count (n + 1)) (.count hn)))
    exact (hf.emit hself).append (build (stands_buildFunc _) (.buildFunc (n + 1)) hg rfl)

/-!
# Statements

Whatever a statement leaves is dropped. A scope is closed where it was opened.
-/

theorem discard (hf : f.Takes a (a.push .value) x) : f.discard.Takes a a x :=
  hf.emit (one (stands_bare rfl) .pop)

theorem inScope (hf : f.Takes a.enter a.enter x) : (Fragment.inScope f).Takes a a x :=
  ((one (stands_bare rfl) .scopeEnter).append hf).emit (one (stands_bare rfl) .scopeExit)

/-- Every arm leads back to the layout in front of the chain. -/
theorem arms {branches : List (Fragment × Fragment)} {other : Option Fragment}
    (hbranches : ∀ arm ∈ branches, arm.1.Takes a (a.push .value) x ∧ arm.2.Takes a a x)
    (hother : ∀ f, other = some f → f.Takes a a x) :
    (Fragment.arms branches other).Takes a a x := by
  induction branches with
  | nil =>
    cases other with
    | none => exact empty
    | some f => exact hother f rfl
  | cons arm rest ih =>
    obtain ⟨cond, body⟩ := arm
    obtain ⟨hcond, hbody⟩ := hbranches (cond, body) List.mem_cons_self
    have htail := ih fun arm harm => hbranches arm (List.mem_cons_of_mem _ harm)
    have hfull : ((cond.emit [.withDistance .jumpIfFalse (body.length + 1)] ++ body).emit
        [.withDistance .jump (Fragment.arms rest other).length] ++
          Fragment.arms rest other).Takes a a x := by
      rw [emit_eq, emit_eq, append_assoc, append_assoc, append_assoc]
      refine hcond.append ?_
      rw [← append_assoc, ← append_assoc]
      exact choose (stands_jumpIfFalse _) .jumpIfFalse hbody htail rfl rfl
    cases rest with
    | cons => exact hfull
    | nil =>
      cases other with
      | some => exact hfull
      | none =>
        show (cond.emit [.withDistance .jumpIfFalse body.length] ++ body).Takes a a x
        rw [emit_eq, append_assoc]
        exact hcond.append (Takes.skip (stands_jumpIfFalse _) .jumpIfFalse hbody rfl)

theorem chain {branches : List (Fragment × Fragment)} {other : Option Fragment}
    (hbranches : ∀ arm ∈ branches, arm.1.Takes a (a.push .value) x ∧ arm.2.Takes a a x)
    (hother : ∀ f, other = some f → f.Takes a a x) :
    (Fragment.chain branches other).Takes a (a.push .value) x :=
  (arms hbranches hother).emit pushNull

/-!
# Synthesized statements

Assignments to hidden names, the loops over counts and iterators, selections, and the bindings that
imports and exports stand for.
-/

theorem assignStmt (hf : f.Takes a (a.push .value) x) (span : Span) (name : Text) (scope : Scope) :
    (Compiler.assignStmt span name f scope).Takes a a x :=
  (hf.assign (targets_var name) span scope).discard

/-- A call of a method without arguments. -/
theorem callMethod
    (hf : ∀ a : Layout, f.Takes a (a.push .value) x) (span : Span) (name : Text) :
    (Fragment.call span 0 Fragment.empty (Fragment.member span f name)).Takes a (a.push .value) x :=
  call empty (Nat.zero_le _) ((hf _).member span name) span

theorem nextStep (span : Span) (scope : Scope) : (Compiler.nextStep span scope).Takes a a x :=
  (callMethod (fun _ => var span _) span _).assignStmt span _ scope

theorem stepPart (span : Span) (n : Nat) : (Compiler.stepPart span n).Takes a (a.push .value) x :=
  (var span _).index (number span _) span

theorem eachLoop {name : Text} (hbare : a.slots = []) (hf : ∀ a : Layout, f.Takes a (a.push .value) x)
    (hg : g.Takes a.enter.enter a.enter.enter (some a.enter)) (span : Span) :
    (Compiler.eachLoop span name f g).Takes a (a.push .value) x := by
  have hsource := @callMethod f a.enter x hf span "iter"
  have hinit := hsource.assignStmt span Compiler.hiddenIter .inner
  have hbind : (Compiler.assignStmt span name (Compiler.stepPart span 1) .inner).Takes a.enter.enter
      a.enter.enter (some a.enter) := (stepPart span 1).assignStmt span name .inner
  refine (loop (hinit.append (nextStep span .inner)) ?_ (hbind.append hg).inScope
    (nextStep span .nearest)).mark a.gains_push (fun _ => hbare) _
  intro c hc
  rw [← Option.some.inj hc]
  exact stepPart span 2

theorem repeatLoop (hbare : a.slots = []) (hf : f.Takes a.enter (a.enter.push .value) x)
    (hg : g.Takes a.enter a.enter (some a.enter)) (span : Span) :
    (Compiler.repeatLoop span f g).Takes a (a.push .value) x := by
  have hzero : (ofCode [.bare .pop, .count 0]).Takes (a.enter.push .value) (a.enter.push .value)
      x :=
    cons (stands_bare rfl) .pop (constant (stands_count 0) trivial)
  have hpop : (ofCode [.bare .pop]).Takes (a.enter.push .value) a.enter x :=
    one (stands_bare rfl) .pop
  have hinit := hf.emit ((((bindTop Compiler.hiddenCount .inner).append hzero).append
    (bindTop Compiler.hiddenIndex .inner)).append hpop)
  have hcond : (ofCode [.withText .getVar Compiler.hiddenIndex,
      .withText .getVar Compiler.hiddenCount, .count 2, .withText .dispatch "<"]).Takes a.enter
      (a.enter.push .value) none :=
    cons (stands_getVar _) .getVar (cons (stands_getVar _) .getVar
      (counted (by decide) (stands_dispatch _) (.dispatch 1)))
  refine (loop hinit ?_ hg (one (stands_increment _) .bump)).mark a.gains_push (fun _ => hbare) _
  intro c hc
  rw [← Option.some.inj hc]
  exact hcond

theorem selectChain {cases : List (Fragment × Fragment)} {other : Option Fragment}
    (hf : f.Takes a.enter (a.enter.push .value) x)
    (hcases : ∀ arm ∈ cases,
      arm.1.Takes a.enter (a.enter.push .value) x ∧ arm.2.Takes a.enter a.enter x)
    (hother : ∀ f, other = some f → f.Takes a.enter a.enter x) (span : Span) :
    (Compiler.selectChain span f cases other).Takes a (a.push .value) x := by
  have hhead : (ofCode [.bare .scopeEnter] ++
      f.emit (Fragment.bindTop Compiler.hiddenMatch .inner ++ [Instruction.bare .pop])).Takes a a.enter x :=
    (one (stands_bare rfl) .scopeEnter).append
      (hf.emit ((bindTop _ _).append (one (stands_bare rfl) .pop)))
  refine ((hhead.append ?_).emit (cons (stands_bare rfl) .scopeExit pushNull)).mark a.gains_push (absurd · (by decide)) _
  split
  · cases other with
    | none => exact empty
    | some f => exact hother f rfl
  · exact (chain hcases hother).discard

theorem caseTest (hf : ∀ a : Layout, f.Takes a (a.push .value) x) (span : Span) :
    (Compiler.caseTest span f).Takes a (a.push .value) x :=
  (var span _).binary (hf _) (hf _) span _

/-- A statement for each of some names. -/
theorem foldNames {stmt : Text → Fragment} (h : ∀ name, (stmt name).Takes a a x)
    (hf : f.Takes a a x) (names : List Text) :
    (names.foldl (fun acc name => acc ++ stmt name) f).Takes a a x := by
  induction names generalizing f with
  | nil => exact hf
  | cons name rest ih => exact ih (hf.append (h name))

theorem importCode (span : Span) (path : Text) (names : List Text) :
    (Compiler.importCode span path names).Takes a a x := by
  unfold Compiler.importCode
  dsimp only
  split
  · exact (var span _).assignStmt span _ _
  · exact foldNames (fun name => ((var span _).member span name).assignStmt span name .inner) empty
      _

theorem exportCode (span : Span) (first : Bool) (names : List Text) :
    (Compiler.exportCode span first names).Takes a a x := by
  have hopening : (if first then Compiler.assignStmt span Key.exports
      (Fragment.dict span 0 Fragment.empty) .inner else Fragment.empty).Takes a a x := by
    split
    · exact (dict empty (Nat.zero_le _) span).assignStmt span _ _
    · exact empty
  exact foldNames (fun name => ((var span name).assign
    (targets_member (var span Key.exports) name) span .nearest).discard) hopening names

theorem linked (hf : f.Takes a a x) {kind : String} (hkind : Compiler.ofLoop kind = false) (span : Span) :
    (Compiler.linked span kind f).Takes a (a.push .value) x :=
  (hf.emit pushNull).mark a.gains_push (fun h => absurd (hkind.symm.trans h) Bool.false_ne_true) _

/-- Field names as they are pushed. -/
theorem fieldNames (names : List Text) :
    (ofCode (names.map Instruction.string)).Takes a (a.pushAll (.replicate names.length .name))
      x := by
  induction names generalizing a with
  | nil => exact nil
  | cons name rest ih =>
    have hrest := @ih (a.push .name)
    have hshape : (a.push .name).pushAll (.replicate rest.length .name) =
        a.pushAll (.replicate (name :: rest).length .name) := by
      show ({ a with slots := _ ++ .name :: a.slots } : Layout) = { a with slots := _ ++ a.slots }
      rw [List.length_cons, List.replicate_succ', List.append_assoc]
      rfl
    rw [hshape] at hrest
    exact cons (stands_string name) (.name name) hrest

theorem typeDef (span : Span) (name : Text) {fields : List Text}
    (hn : fields.length ≤ Slot.limit) :
    (Compiler.typeDefCode span name fields).Takes a (a.push .value) x := by
  have hnames := @fieldNames a x fields.reverse
  rw [List.length_reverse] at hnames
  have hbuild : (ofCode [.count fields.length, .withText .buildType name]).Takes
      (a.pushAll (.replicate fields.length .name)) (a.push .value) x :=
    counted hn (stands_buildType name) (.buildType fields.length)
  exact ((hnames.append hbuild).append (bindTop name .inner)).mark a.gains_push (absurd · (by decide)) _

end Takes
end Fragment
end ScriptEngine
