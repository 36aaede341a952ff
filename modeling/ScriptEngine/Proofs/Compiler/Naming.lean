import ScriptEngine.Proofs.Compiler.Heights
import ScriptEngine.Proofs.Text.Keys

/-!
# Trees that keep to their names

The exports of a program are kept under a hidden name. A tree is plain if it neither mentions that name
nor defines a type without one, and exports nothing. The code of a plain tree names the exports
nowhere, and every marker in it stands in front of the name that is bound next.
-/

namespace ScriptEngine

/-!
# Plain trees
-/

mutual

/-- The expression does not mention the hidden name. -/
def Expr.plain : Expr → Bool
  | .number .. | .text .. | .boolean .. | .null _ | .missing => true
  | .var _ name => name != Key.exports
  | .list _ items => Expr.allPlain items
  | .dict _ entries => Entry.allPlain entries
  | .binary _ _ left right => left.plain && right.plain
  | .unary _ _ operand => operand.plain
  | .assign _ target value _ => target.plain && value.plain
  | .call _ callee args => callee.plain && Expr.allPlain args
  | .member _ object _ => object.plain
  | .index _ object key => object.plain && key.plain
  | .func _ name params body => name != Key.exports && Param.allPlain params && body.plain

def Expr.allPlain : List Expr → Bool
  | [] => true
  | e :: rest => e.plain && Expr.allPlain rest

def Expr.plainOption : Option Expr → Bool
  | none => true
  | some e => e.plain

def Entry.allPlain : List Entry → Bool
  | [] => true
  | .mk key value :: rest => key.plain && value.plain && Entry.allPlain rest

def Param.allPlain : List Param → Bool
  | [] => true
  | .mk _ guard :: rest => Expr.plainOption guard && Param.allPlain rest

def Block.plain : Block → Bool
  | .mk _ body => Stmt.allPlain body

def Block.plainOption : Option Block → Bool
  | none => true
  | some b => b.plain

def Branch.allPlain : List Branch → Bool
  | [] => true
  | .mk cond body :: rest => cond.plain && body.plain && Branch.allPlain rest

def Case.allPlain : List Case → Bool
  | [] => true
  | .mk values body :: rest => Expr.allPlain values && body.plain && Case.allPlain rest

/-- The statement does not mention the hidden name, defines no type without a name and exports
nothing. -/
def Stmt.plain : Stmt → Bool
  | .expr _ x => x.plain
  | .block body => body.plain
  | .cond _ branches otherwise => Branch.allPlain branches && Block.plainOption otherwise
  | .whileLoop _ cond body => cond.plain && body.plain
  | .forLoop _ init cond step body =>
    Stmt.plainOption init && Expr.plainOption cond && Stmt.plainOption step && body.plain
  | .loop _ count body => count.plain && body.plain
  | .each _ name source body => name != Key.exports && source.plain && body.plain
  | .select _ subject cases otherwise =>
    subject.plain && Case.allPlain cases && Block.plainOption otherwise
  | .impl _ _ _ params body => Param.allPlain params && body.plain
  | .typeDef _ name _ => name != Key.exports && !name.isEmpty
  | .ret _ value => Expr.plainOption value
  | .leave _ | .again _ | .missing => true
  | .imports _ path names => Path.base path != Key.exports && names.all (· != Key.exports)
  | .exports .. => false

def Stmt.plainOption : Option Stmt → Bool
  | none => true
  | some s => s.plain

def Stmt.allPlain : List Stmt → Bool
  | [] => true
  | s :: rest => s.plain && Stmt.allPlain rest

end

/-- A statement at the top level: a plain one, or an export of names other than the hidden one. -/
def Stmt.plainTop : Stmt → Bool
  | .exports _ names => names.all (· != Key.exports)
  | s => s.plain

/-!
# Tame code
-/

/-- The value of a constant. -/
def Value.Constant : Value → Prop
  | .null | .number _ | .text _ | .boolean _ => True
  | .type t => t.record = false
  | _ => False

/-- The operation pushes no marker, does not name the exports and builds no type without a name. -/
def Op.Tame : Op → Prop
  | .push v => v.Constant
  | .getVar name | .bump name _ => name ≠ Key.exports
  | .buildType name => name.isEmpty = false
  | _ => True

namespace Instruction

def Tame (i : Instruction) : Prop :=
  ∀ op, i.Reads op → op.Tame

/-- Jumps and the instruction that builds a function. -/
theorem tame_withDistance {op : Operation} {d : Int} (h : op.operandKind = .jump) :
    (withDistance op d).Tame := by
  intro o ho
  obtain ⟨operand, -, rfl⟩ := Option.map_eq_some_iff.mp ho
  cases op <;> first
    | exact absurd h (by decide)
    | trivial

theorem tame_number (x : Float) : (number x).Tame := by
  intro op h
  rw [h.eq_of_stands (stands_number x) rfl]
  trivial

theorem tame_count (n : Nat) : (count n).Tame :=
  tame_number _

theorem tame_string (s : Text) : (string s).Tame := by
  intro op h
  rw [h.eq_of_stands (stands_string s) rfl]
  trivial

theorem tame_boolean (b : Bool) : (withText .pushBoolean (if b then "true" else "false")).Tame := by
  intro op h
  rw [h.eq_of_stands (stands_boolean b) rfl]
  trivial

theorem tame_pushType (name : Text) : (withText .pushType name).Tame := by
  intro op h
  rw [h.eq_of_stands (stands_pushType name) rfl]
  rfl

theorem tame_dispatch (op : Text) : (withText .dispatch op).Tame := by
  intro o h
  rw [h.eq_of_stands (stands_dispatch op) rfl]
  trivial

theorem tame_getVar {name : Text} (hname : name ≠ Key.exports) : (withText .getVar name).Tame := by
  intro op h
  rw [h.eq_of_stands (stands_getVar name) rfl]
  exact hname

theorem tame_increment {name : Text} (hname : name ≠ Key.exports) :
    (withText .increment name).Tame := by
  intro op h
  rw [h.eq_of_stands (stands_increment name) rfl]
  exact hname

theorem tame_buildType {name : Text} (hname : name.isEmpty = false) :
    (withText .buildType name).Tame := by
  intro op h
  rw [h.eq_of_stands (stands_buildType name) rfl]
  exact hname

/-- Instructions without operands, the marker apart. -/
theorem tame_bare {op : Operation} (h : ((bareOp op).isSome && op != .pushEmpty) = true) :
    (bare op).Tame := by
  intro o ho
  cases op <;> first
    | exact absurd h (by decide)
    | rw [ho.eq_of_stands (stands_bare rfl) rfl]
      trivial

theorem tame_jumpTo (index target : Nat) : (Fragment.jumpTo index target).Tame :=
  tame_withDistance rfl

theorem tame_assign (scope : Scope) : (bare (Fragment.assignOp scope)).Tame := by
  cases scope <;> exact tame_bare rfl

end Instruction

namespace Fragment

/-- At the position a name other than the hidden one is bound. -/
def BindsAt (code : List Instruction) (i : Nat) : Prop :=
  code[i]? = some (.bare .pushEmpty) ∧ ∃ name scope, name ≠ Key.exports ∧
    code[i + 1]? = some (.string name) ∧ code[i + 2]? = some (.bare (assignOp scope))

/-- The instructions are tame, markers apart that stand in front of a name that is bound. Waiting exits
are no parts of bindings. -/
structure Tame (f : Fragment) : Prop where
  code : ∀ i ins, f.code[i]? = some ins → ins.Tame ∨ BindsAt f.code i
  exits : ∀ e ∈ f.exits, ∃ again : Bool,
    f.code[e.index]? = some (.bare (if again then .again else .leave))

variable {f g : Fragment}

theorem BindsAt.append_left {l l' : List Instruction} {i : Nat} (h : BindsAt l i) :
    BindsAt (l ++ l') i := by
  obtain ⟨hmarker, name, scope, hname, htext, hassign⟩ := h
  have hleft : ∀ {j ins}, l[j]? = some ins → (l ++ l')[j]? = some ins := fun hj => by
    rw [List.getElem?_append_left (List.getElem?_eq_some_iff.mp hj).1]
    exact hj
  exact ⟨hleft hmarker, name, scope, hname, hleft htext, hleft hassign⟩

theorem BindsAt.append_right {l l' : List Instruction} {i : Nat} (h : BindsAt l' i) :
    BindsAt (l ++ l') (l.length + i) := by
  obtain ⟨hmarker, name, scope, hname, htext, hassign⟩ := h
  have hright : ∀ {j ins}, l'[j]? = some ins → (l ++ l')[l.length + j]? = some ins := fun hj => by
    rw [List.getElem?_append_right (Nat.le_add_right _ _), Nat.add_sub_cancel_left]
    exact hj
  exact ⟨hright hmarker, name, scope, hname, hright htext, hright hassign⟩

theorem tame_empty : empty.Tame :=
  ⟨(fun _ _ h => by cases h), fun _ h => absurd h List.not_mem_nil⟩

theorem Tame.append (hf : f.Tame) (hg : g.Tame) : (f ++ g).Tame where
  code i ins h := by
    rw [code_append] at h ⊢
    rcases Nat.lt_or_ge i f.code.length with hi | hi
    · rw [List.getElem?_append_left hi] at h
      exact (hf.code i ins h).imp_right .append_left
    · rw [List.getElem?_append_right hi] at h
      have hbinds : BindsAt g.code (i - f.code.length) → BindsAt (f.code ++ g.code) i := by
        intro h
        have hright := h.append_right (l := f.code)
        rwa [Nat.add_sub_cancel' hi] at hright
      exact (hg.code _ ins h).imp_right hbinds
  exits e he := by
    rw [exits_append] at he
    rw [code_append]
    rcases List.mem_append.mp he with he | he
    · obtain ⟨again, h⟩ := hf.exits e he
      refine ⟨again, ?_⟩
      rw [List.getElem?_append_left (List.getElem?_eq_some_iff.mp h).1]
      exact h
    · obtain ⟨e', he', rfl⟩ := List.mem_map.mp he
      obtain ⟨again, h⟩ := hg.exits e' he'
      refine ⟨again, ?_⟩
      show (f.code ++ g.code)[e'.index + f.code.length]? = _
      rw [List.getElem?_append_right (Nat.le_add_left _ _), Nat.add_sub_cancel]
      exact h

theorem tame_ofCode {code : List Instruction} (h : ∀ ins ∈ code, ins.Tame) : (ofCode code).Tame :=
  ⟨fun _ ins hins => Or.inl (h ins (List.mem_of_getElem? hins)), fun _ h => absurd h List.not_mem_nil⟩

theorem tame_bindTop {name : Text} (hname : name ≠ Key.exports) (scope : Scope) :
    (ofCode (bindTop name scope)).Tame where
  code i ins h := by
    have hins : (i = 0 ∨ i = 1 ∨ i = 2) := by
      have hlt : i < 3 := (List.getElem?_eq_some_iff.mp h).1
      omega
    rcases hins with rfl | rfl | rfl
    · exact Or.inr ⟨rfl, name, scope, hname, rfl, rfl⟩
    · cases h
      exact Or.inl (Instruction.tame_string name)
    · cases h
      exact Or.inl (Instruction.tame_assign scope)
  exits _ h := absurd h List.not_mem_nil

theorem Tame.emit (hf : f.Tame) {code : List Instruction} (h : ∀ ins ∈ code, ins.Tame) :
    (f.emit code).Tame := by
  rw [emit_eq]
  exact hf.append (tame_ofCode h)

theorem Tame.emitBinding (hf : f.Tame) {name : Text} (hname : name ≠ Key.exports) (scope : Scope) :
    (f.emit (bindTop name scope)).Tame := by
  rw [emit_eq]
  exact hf.append (tame_bindTop hname scope)

theorem Tame.mark (hf : f.Tame) (kind : String) (span : Span) : (f.mark kind span).Tame where
  code := by
    rw [mark_code]
    exact hf.code
  exits := by
    rw [mark_code, mark_exits]
    exact hf.exits

/-- Exits are turned into jumps, and bindings stay. -/
theorem Tame.resolve (hf : f.Tame) (leave again : Nat) : (f.resolve leave again).Tame where
  code i ins h := by
    have hkept : ∀ {j : Nat} {ins : Instruction}, f.code[j]? = some ins →
        (∀ b : Bool, ins ≠ Instruction.bare (if b then .again else .leave)) →
        (f.resolve leave again).code[j]? = some ins := by
      intro j ins hj hne
      have hlt : j < (f.resolve leave again).code.length :=
        Nat.lt_of_lt_of_eq (List.getElem?_eq_some_iff.mp hj).1 (length_resolve f leave again).symm
      have hself := List.getElem?_eq_getElem hlt
      rcases getElem?_patched hself with ⟨hsame, -⟩ | ⟨e, he, rfl, -⟩
      · rw [hself, ← hsame, hj]
      · obtain ⟨b, hb⟩ := hf.exits e he
        exact absurd (Option.some.inj (hj.symm.trans hb)) (hne b)
    rcases getElem?_patched h with ⟨hcode, -⟩ | ⟨e, -, -, rfl⟩
    · refine (hf.code i ins hcode).imp_right ?_
      rintro ⟨hmarker, name, scope, hname, htext, hassign⟩
      refine ⟨hkept hmarker ?_, name, scope, hname, hkept htext ?_, hkept hassign ?_⟩
      · intro b
        cases b <;> decide
      · exact fun b h => by cases congrArg Instruction.operand h
      · intro b
        cases b <;> cases scope <;> decide
    · exact Or.inl (Instruction.tame_jumpTo _ _)
  exits _ h := absurd h List.not_mem_nil

/-- What an assignment writes to: together with the instruction that writes it is tame. -/
def Aims (t : Fragment) : Prop :=
  ∀ (f : Fragment) (scope : Scope), f.Tame → ((f ++ t).emit [.bare (assignOp scope)]).Tame

/-!
# Layouts of expressions
-/

open Instruction

theorem tame_number (span : Span) (x : Float) : (number span x).Tame :=
  (tame_ofCode (List.forall_mem_singleton.mpr (Instruction.tame_number x))).mark _ _

theorem tame_text (span : Span) (s : Text) : (text span s).Tame :=
  (tame_ofCode (List.forall_mem_singleton.mpr (tame_string s))).mark _ _

theorem tame_boolean (span : Span) (b : Bool) : (boolean span b).Tame :=
  (tame_ofCode (List.forall_mem_singleton.mpr (Instruction.tame_boolean b))).mark _ _

theorem tame_pushNull : (ofCode [bare .pushNull]).Tame :=
  tame_ofCode (List.forall_mem_singleton.mpr (tame_bare rfl))

theorem tame_null (span : Span) : (null span).Tame :=
  tame_pushNull.mark _ _

theorem tame_var {name : Text} (hname : name ≠ Key.exports) (span : Span) : (var span name).Tame :=
  (tame_ofCode (List.forall_mem_singleton.mpr (tame_getVar hname))).mark _ _

/-- A count and the instruction that uses it. -/
theorem Tame.counted (hf : f.Tame) (n : Nat) {ins : Instruction} (h : ins.Tame) :
    (f.emit [.count n, ins]).Tame :=
  hf.emit (List.forall_mem_cons.mpr ⟨tame_count n, List.forall_mem_singleton.mpr h⟩)

theorem Tame.emitOne (hf : f.Tame) {ins : Instruction} (h : ins.Tame) : (f.emit [ins]).Tame :=
  hf.emit (List.forall_mem_singleton.mpr h)

theorem Tame.list (hf : f.Tame) (span : Span) (n : Nat) : (list span n f).Tame :=
  (hf.counted n (tame_bare rfl)).mark _ _

theorem Tame.dict (hf : f.Tame) (span : Span) (n : Nat) : (dict span n f).Tame :=
  (hf.counted n (tame_bare rfl)).mark _ _

theorem Tame.binary (hf : f.Tame) (hg : g.Tame) (span : Span) (op : Text) :
    (binary span op f g).Tame := by
  have hskip : ∀ {skip : Operation}, (∀ d, (withDistance skip d).Tame) →
      (f.emit [.withDistance skip (1 + g.length), .bare .pop] ++ g).Tame := fun h =>
    (hf.emit (List.forall_mem_cons.mpr ⟨h _, List.forall_mem_singleton.mpr (tame_bare rfl)⟩)).append
      hg
  refine Tame.mark ?_ _ _
  split
  · exact hskip fun _ => tame_withDistance rfl
  split
  · exact hskip fun _ => tame_withDistance rfl
  · exact (hf.append hg).counted 2 (tame_dispatch op)

theorem Tame.unary (hf : f.Tame) (span : Span) (op : Text) : (unary span op f).Tame := by
  refine Tame.mark (hf.emit ?_) _ _
  split
  · exact List.forall_mem_singleton.mpr (tame_bare rfl)
  split
  · exact List.forall_mem_singleton.mpr (tame_bare rfl)
  · exact List.forall_mem_cons.mpr ⟨tame_count 1, List.forall_mem_singleton.mpr (tame_dispatch op)⟩

theorem Tame.call (hf : f.Tame) (hg : g.Tame) (span : Span) (n : Nat) : (call span n f g).Tame :=
  (((hf.emitOne (tame_count n)).append hg).emitOne (tame_bare rfl)).mark _ _

theorem Tame.member (hf : f.Tame) (span : Span) (name : Text) : (member span f name).Tame :=
  (hf.emit (List.forall_mem_cons.mpr
    ⟨tame_string name, List.forall_mem_singleton.mpr (tame_bare rfl)⟩)).mark _ _

theorem Tame.index (hf : f.Tame) (hg : g.Tame) (span : Span) : (index span f g).Tame :=
  ((hf.append hg).emitOne (tame_bare rfl)).mark _ _

theorem aims_varTarget {name : Text} (hname : name ≠ Key.exports) : (varTarget name).Aims := by
  intro f scope hf
  rw [emit_eq, append_assoc]
  exact hf.append (tame_bindTop hname scope)

theorem Tame.aims (hf : f.Tame) : f.Aims :=
  fun _ scope hvalue => (hvalue.append hf).emitOne (tame_assign scope)

theorem Tame.assign (hf : f.Tame) {target : Option Fragment} (htarget : ∀ t, target = some t → t.Aims)
    (span : Span) (scope : Scope) : (assign span f target scope).Tame := by
  cases target with
  | none => exact hf.mark _ _
  | some t => exact (htarget t rfl f scope hf).mark _ _

theorem Tame.function (hf : f.Tame) (hg : g.Tame) (n : Nat) (selfType : Text) :
    (function f n selfType g).Tame := by
  have hbuild : ∀ {h : Fragment}, h.Tame → (h.emit [.withDistance .buildFunc g.length] ++ g).Tame :=
    fun h => (h.emitOne (tame_withDistance rfl)).append hg
  unfold Fragment.function
  dsimp only
  split
  · exact hbuild (hf.emitOne (tame_count n))
  · exact hbuild (hf.emit (List.forall_mem_cons.mpr ⟨tame_pushType selfType,
      List.forall_mem_cons.mpr ⟨tame_string "self", List.forall_mem_singleton.mpr (tame_count _)⟩⟩))

/-!
# Layouts of statements
-/

theorem Tame.discard (hf : f.Tame) : f.discard.Tame :=
  hf.emitOne (tame_bare rfl)

theorem tame_scopeEnter : (ofCode [bare .scopeEnter]).Tame :=
  tame_ofCode (List.forall_mem_singleton.mpr (tame_bare rfl))

theorem Tame.inScope (hf : f.Tame) : (inScope f).Tame :=
  (tame_scopeEnter.append hf).emitOne (tame_bare rfl)

theorem tame_arms {branches : List (Fragment × Fragment)} {other : Option Fragment}
    (hbranches : ∀ arm ∈ branches, arm.1.Tame ∧ arm.2.Tame) (hother : ∀ f, other = some f → f.Tame) :
    (arms branches other).Tame := by
  induction branches with
  | nil =>
    cases other with
    | none => exact tame_empty
    | some f => exact hother f rfl
  | cons arm rest ih =>
    obtain ⟨cond, body⟩ := arm
    obtain ⟨hcond, hbody⟩ := hbranches (cond, body) List.mem_cons_self
    have htail := ih fun arm harm => hbranches arm (List.mem_cons_of_mem _ harm)
    have hfirst : ∀ d, (cond.emit [.withDistance .jumpIfFalse d] ++ body).Tame := fun _ =>
      (hcond.emitOne (tame_withDistance rfl)).append hbody
    have hfull : ((cond.emit [.withDistance .jumpIfFalse (body.length + 1)] ++ body).emit
        [.withDistance .jump (arms rest other).length] ++ arms rest other).Tame :=
      ((hfirst _).emitOne (tame_withDistance rfl)).append htail
    cases rest with
    | nil =>
      cases other with
      | none => exact hfirst _
      | some f => exact hfull
    | cons => exact hfull

theorem tame_chain {branches : List (Fragment × Fragment)} {other : Option Fragment}
    (hbranches : ∀ arm ∈ branches, arm.1.Tame ∧ arm.2.Tame) (hother : ∀ f, other = some f → f.Tame) :
    (chain branches other).Tame :=
  (tame_arms hbranches hother).emitOne (tame_bare rfl)

theorem tame_loop {init body step : Fragment} {cond : Option Fragment} (hinit : init.Tame)
    (hcond : ∀ c, cond = some c → c.Tame) (hbody : body.Tame) (hstep : step.Tame) :
    (loop init cond body step).Tame := by
  have hends : ∀ d : Int, ∀ ins ∈ [withDistance .jump d, bare .scopeExit, bare .pushNull], ins.Tame :=
    fun d => List.forall_mem_cons.mpr ⟨tame_withDistance rfl, List.forall_mem_cons.mpr
      ⟨tame_bare rfl, List.forall_mem_singleton.mpr (tame_bare rfl)⟩⟩
  unfold loop
  dsimp only
  refine Tame.emit ((tame_scopeEnter.append hinit).append ((Tame.append ?_ (hbody.resolve _ _)).append hstep))
    (hends _)
  cases cond with
  | none => exact tame_empty
  | some c => exact (hcond c rfl).emitOne (tame_withDistance rfl)

theorem tame_exit (again : Bool) (scopes : Option Nat) : (exit again scopes).Tame := by
  have hstray : (bare (if again then .again else .leave)).Tame := by
    cases again <;> exact tame_bare rfl
  cases scopes with
  | none => exact tame_ofCode (List.forall_mem_singleton.mpr hstray)
  | some n =>
    refine ⟨fun i ins h => Or.inl ?_, fun e he => ⟨again, ?_⟩⟩
    · rcases List.mem_append.mp (List.mem_of_getElem? h) with h | h
      · rw [(List.mem_replicate.mp h).2]
        exact tame_bare rfl
      · rw [List.mem_singleton.mp h]
        exact hstray
    · rw [List.mem_singleton.mp he]
      show (List.replicate n (bare .scopeExit) ++ [bare (if again then .again else .leave)])[n]? = _
      rw [List.getElem?_append_right (Nat.le_of_eq List.length_replicate), List.length_replicate,
        Nat.sub_self]
      rfl

end Fragment

namespace Compiler

open Fragment Instruction

variable {f g : Fragment}

/-!
# Synthesized code
-/

theorem hidden_ne_exports : hiddenCount ≠ Key.exports ∧ hiddenIndex ≠ Key.exports ∧
    hiddenIter ≠ Key.exports ∧ hiddenStep ≠ Key.exports ∧ hiddenMatch ≠ Key.exports := by
  decide

theorem tame_assignStmt {name : Text} (hname : name ≠ Key.exports) (hf : f.Tame) (span : Span)
    (scope : Scope) : (assignStmt span name f scope).Tame :=
  (hf.assign (fun _ ht => by cases ht; exact aims_varTarget hname) span scope).discard

theorem tame_nextStep (span : Span) (scope : Scope) : (nextStep span scope).Tame :=
  tame_assignStmt hidden_ne_exports.2.2.2.1
    (tame_empty.call ((tame_var hidden_ne_exports.2.2.1 span).member span "next") span 0) span scope

theorem tame_stepPart (span : Span) (n : Nat) : (stepPart span n).Tame :=
  (tame_var hidden_ne_exports.2.2.2.1 span).index (Fragment.tame_number span _) span

theorem tame_eachLoop {name : Text} (hname : name ≠ Key.exports) (hf : f.Tame) (hg : g.Tame)
    (span : Span) : (eachLoop span name f g).Tame := by
  have hinit : (assignStmt span hiddenIter
      (Fragment.call span 0 Fragment.empty (Fragment.member span f "iter")) .inner).Tame :=
    tame_assignStmt hidden_ne_exports.2.2.1 (tame_empty.call (hf.member span "iter") span 0) span .inner
  have hbind := tame_assignStmt hname (tame_stepPart span 1) span .inner
  refine (tame_loop (hinit.append (tame_nextStep span .inner)) (fun c hc => ?_)
    (hbind.append hg).inScope (tame_nextStep span .nearest)).mark _ _
  cases hc
  exact tame_stepPart span 2

theorem tame_repeatLoop (hf : f.Tame) (hg : g.Tame) (span : Span) : (repeatLoop span f g).Tame := by
  have hpop : ∀ ins ∈ [bare .pop], ins.Tame := List.forall_mem_singleton.mpr (tame_bare rfl)
  have hinit : (f.emit (Fragment.bindTop hiddenCount .inner ++ [Instruction.bare .pop, .count 0]
      ++ Fragment.bindTop hiddenIndex .inner ++ [Instruction.bare .pop])).Tame := by
    have hreset : ∀ ins ∈ [bare .pop, count 0], ins.Tame :=
      List.forall_mem_cons.mpr ⟨tame_bare rfl, List.forall_mem_singleton.mpr (tame_count 0)⟩
    have hcount := (hf.emitBinding hidden_ne_exports.1 .inner).emit hreset
    have hall := (hcount.emitBinding hidden_ne_exports.2.1 .inner).emit hpop
    simp only [Fragment.emit, List.append_assoc] at hall ⊢
    exact hall
  have hcond : (Fragment.ofCode [.withText .getVar hiddenIndex, .withText .getVar hiddenCount, .count 2,
      .withText .dispatch "<"]).Tame :=
    tame_ofCode (List.forall_mem_cons.mpr ⟨tame_getVar hidden_ne_exports.2.1,
      List.forall_mem_cons.mpr ⟨tame_getVar hidden_ne_exports.1, List.forall_mem_cons.mpr
        ⟨tame_count 2, List.forall_mem_singleton.mpr (tame_dispatch _)⟩⟩⟩)
  refine (tame_loop hinit (fun c hc => ?_) hg (tame_ofCode (List.forall_mem_singleton.mpr
    (tame_increment hidden_ne_exports.2.1)))).mark _ _
  cases hc
  exact hcond

theorem tame_selectChain {branches : List (Fragment × Fragment)} {other : Option Fragment}
    (hf : f.Tame) (hbranches : ∀ arm ∈ branches, arm.1.Tame ∧ arm.2.Tame)
    (hother : ∀ g, other = some g → g.Tame) (span : Span) :
    (selectChain span f branches other).Tame := by
  have hsubject : (f.emit (Fragment.bindTop hiddenMatch .inner ++ [Instruction.bare .pop])).Tame := by
    have hpop : (bare .pop).Tame := tame_bare rfl
    have hall := (hf.emitBinding hidden_ne_exports.2.2.2.2 .inner).emitOne hpop
    simp only [Fragment.emit, List.append_assoc] at hall ⊢
    exact hall
  refine (((tame_scopeEnter.append hsubject).append ?_).emit (List.forall_mem_cons.mpr
    ⟨tame_bare rfl, List.forall_mem_singleton.mpr (tame_bare rfl)⟩)).mark _ _
  split
  · cases other with
    | none => exact tame_empty
    | some g => exact hother g rfl
  · exact (tame_chain hbranches hother).discard

theorem tame_caseTest (hf : f.Tame) (span : Span) : (caseTest span f).Tame :=
  (tame_var hidden_ne_exports.2.2.2.2 span).binary hf span "=="

theorem join_ne_exports (name : Text) {type : Text} (h : type.isEmpty = false) :
    Key.join name type ≠ Key.exports :=
  Key.join_ne (by decide) name h

theorem tame_importCode {path : Text} {names : List Text} (hbase : Path.base path ≠ Key.exports)
    (hnames : ∀ name ∈ names, name ≠ Key.exports) (span : Span) : (importCode span path names).Tame := by
  have hmodule := tame_var (Key.module_ne (by decide) path) span
  have hall : ∀ (names : List Text) (acc : Fragment), (∀ name ∈ names, name ≠ Key.exports) → acc.Tame →
      (names.foldl (fun acc name => acc ++ assignStmt span name
        (Fragment.member span (Fragment.var span (Key.module path)) name) .inner) acc).Tame := by
    intro names
    induction names with
    | nil => exact fun _ _ h => h
    | cons name rest ih =>
      intro acc hnames hacc
      obtain ⟨hname, hrest⟩ := List.forall_mem_cons.mp hnames
      exact ih _ hrest (hacc.append (tame_assignStmt hname (hmodule.member span name) span .inner))
  unfold importCode
  dsimp only
  split
  · exact tame_assignStmt hbase hmodule span .inner
  · exact hall names _ hnames tame_empty

theorem tame_linked (hf : f.Tame) (span : Span) (kind : String) : (linked span kind f).Tame :=
  (hf.emitOne (tame_bare rfl)).mark _ _

theorem tame_typeDefCode {name : Text} (hname : name ≠ Key.exports) (hempty : name.isEmpty = false)
    (span : Span) (fields : List Text) : (typeDefCode span name fields).Tame := by
  have hfields : ∀ ins ∈ fields.reverse.map Instruction.string
      ++ [Instruction.count fields.length, .withText .buildType name], ins.Tame := by
    intro ins hins
    rcases List.mem_append.mp hins with hins | hins
    · obtain ⟨s, -, rfl⟩ := List.mem_map.mp hins
      exact tame_string s
    · exact List.forall_mem_cons.mpr ⟨tame_count _, List.forall_mem_singleton.mpr
        (tame_buildType hempty)⟩ ins hins
  exact ((tame_ofCode hfields).emitBinding hname .inner).mark _ _

/-!
# Generation
-/

section
variable {α β : Type} {P : α → Prop} {Q : β → Prop}

/-- What is generated has the property, and whether exports are open does not change. -/
def Gen.Gives (P : α → Prop) (x : Gen α) : Prop :=
  ∀ p a p', x p = .ok a p' → P a ∧ p'.exporting = p.exporting

theorem Gen.gives_pure {a : α} (h : P a) : Gen.Gives P (pure a) := by
  intro p b p' hrun
  obtain ⟨rfl, rfl⟩ := pure_ok hrun
  exact ⟨h, rfl⟩

theorem Gen.gives_throw (e : Refusal) : Gen.Gives P (throw e) := by
  intro p b p' hrun
  cases hrun

theorem Gen.Gives.bind {x : Gen α} {k : α → Gen β} (hx : Gen.Gives P x)
    (hk : ∀ a, P a → Gen.Gives Q (k a)) : Gen.Gives Q (x >>= k) := by
  intro p b p' hrun
  obtain ⟨a, p₁, ha, hb⟩ := bind_ok hrun
  obtain ⟨hPa, hp₁⟩ := hx p a p₁ ha
  obtain ⟨hQb, hp'⟩ := hk a hPa p₁ b p' hb
  exact ⟨hQb, hp'.trans hp₁⟩

theorem Gen.Gives.map {x : Gen α} {k : α → β} (hx : Gen.Gives P x) (hk : ∀ a, P a → Q (k a)) :
    Gen.Gives Q (x >>= fun a => pure (k a)) :=
  hx.bind fun a ha => Gen.gives_pure (hk a ha)

/-- Checks say nothing about what is generated. -/
theorem Gen.Gives.after {x : Gen Unit} {k : Unit → Gen β} (hx : Gen.Gives (fun _ => True) x)
    (hk : Gen.Gives Q (k ())) : Gen.Gives Q (x >>= k) :=
  hx.bind fun _ _ => hk

end

theorem gives_report (code : String) (span : Span) (message : Text) :
    Gen.Gives (fun _ => True) (report code span message) := by
  intro p a p' hrun
  cases hrun
  exact ⟨trivial, rfl⟩

theorem gives_checkDistinct (message : Text → Text) (code : String) (span : Span)
    (seen names : List Text) :
    Gen.Gives (fun _ => True) (checkDistinct message code span seen names) := by
  induction names generalizing seen with
  | nil => exact Gen.gives_pure trivial
  | cons name rest ih =>
    rw [checkDistinct]
    split
    · exact (gives_report _ _ _).after (ih _)
    · exact ih _

theorem gives_checkTypeDef (span : Span) (name : Text) (fields : List Text) :
    Gen.Gives (fun _ => True) (checkTypeDef span name fields) := by
  unfold checkTypeDef
  split
  · exact (gives_report _ _ _).after (gives_checkDistinct _ _ _ _ _)
  · exact gives_checkDistinct _ _ _ _ _

theorem gives_importStmt (linker : Linker) {path : Text} {names : List Text}
    (hbase : Path.base path ≠ Key.exports) (hnames : ∀ name ∈ names, name ≠ Key.exports) (span : Span) :
    Gen.Gives Fragment.Tame (importStmt linker span path names) := by
  cases linker with
  | absent | closed => exact (gives_report _ _ _).after (Gen.gives_pure (tame_linked tame_empty _ _))
  | modules => exact Gen.gives_pure (tame_linked (tame_importCode hbase hnames _) _ _)

/-!
# The walk
-/

/-- All fragments of arms are tame. -/
def ArmsTame (l : List (Fragment × Fragment)) : Prop :=
  ∀ arm ∈ l, arm.1.Tame ∧ arm.2.Tame

/-- The fragment is tame if it is there. -/
def OptionTame (o : Option Fragment) : Prop :=
  ∀ f, o = some f → f.Tame

theorem OptionTame.some (h : f.Tame) : OptionTame (some f) :=
  fun _ hf => by cases hf; exact h

theorem OptionTame.none : OptionTame none :=
  fun _ hf => by cases hf

theorem ArmsTame.cons {l : List (Fragment × Fragment)} (hf : f.Tame) (hg : g.Tame) (h : ArmsTame l) :
    ArmsTame ((f, g) :: l) :=
  List.forall_mem_cons.mpr ⟨⟨hf, hg⟩, h⟩

mutual

theorem gives_expr (linker : Linker) : ∀ e : Expr, e.plain = true → Gen.Gives Fragment.Tame (expr linker e)
  | .number s x, _ => by
    rw [expr]
    exact Gen.gives_pure (Fragment.tame_number s x)
  | .text s t, _ => by
    rw [expr]
    exact Gen.gives_pure (tame_text s t)
  | .boolean s b, _ => by
    rw [expr]
    exact Gen.gives_pure (Fragment.tame_boolean s b)
  | .null s, _ => by
    rw [expr]
    exact Gen.gives_pure (tame_null s)
  | .var s name, h => by
    rw [expr]
    exact Gen.gives_pure (tame_var (by simpa [Expr.plain] using h) s)
  | .list s items, h => by
    rw [expr]
    exact (gives_exprsBackward linker items (by simpa [Expr.plain] using h)).map fun _ hf => hf.list s _
  | .dict s entries, h => by
    rw [expr]
    exact (gives_entriesBackward linker entries (by simpa [Expr.plain] using h)).map fun _ hf => hf.dict s _
  | .binary s op left right, h => by
    rw [Expr.plain, Bool.and_eq_true] at h
    rw [expr]
    exact (gives_expr linker left h.1).bind fun _ hl =>
      (gives_expr linker right h.2).map fun _ hr => hl.binary hr s op
  | .unary s op operand, h => by
    rw [expr]
    exact (gives_expr linker operand (by simpa [Expr.plain] using h)).map fun _ hf => hf.unary s op
  | .assign s target value scope, h => by
    rw [Expr.plain, Bool.and_eq_true] at h
    rw [expr]
    exact (gives_expr linker value h.2).bind fun _ hv =>
      (gives_assignTarget linker target h.1).map fun _ ht => hv.assign ht s scope
  | .call s callee args, h => by
    rw [Expr.plain, Bool.and_eq_true] at h
    rw [expr]
    exact (gives_exprs linker args h.2).bind fun _ ha =>
      (gives_expr linker callee h.1).map fun _ hc => ha.call hc s _
  | .member s object name, h => by
    rw [expr]
    exact (gives_expr linker object (by simpa [Expr.plain] using h)).map fun _ hf => hf.member s name
  | .index s object key, h => by
    rw [Expr.plain, Bool.and_eq_true] at h
    rw [expr]
    exact (gives_expr linker object h.1).bind fun _ ho =>
      (gives_expr linker key h.2).map fun _ hk => ho.index hk s
  | .func s name params body, h => by
    rw [Expr.plain, Bool.and_eq_true, Bool.and_eq_true, bne_iff_ne] at h
    rw [expr]
    refine (gives_checkDistinct _ _ _ _ _).after ?_
    refine (gives_paramsBackward linker params h.1.2).bind fun ps hps =>
      (gives_functionBody linker body h.2).map fun b hb => Fragment.Tame.mark ?_ _ _
    have hfunction := hps.function hb params.length Text.empty
    split
    · exact hfunction
    · exact hfunction.emitBinding h.1.1 .nearest
  | .missing, _ => by
    rw [expr]
    exact Gen.gives_throw _

theorem gives_assignTarget (linker : Linker) : ∀ e : Expr, e.plain = true →
    Gen.Gives (fun o => ∀ t, o = some t → t.Aims) (assignTarget linker e)
  | .var _ name, h => by
    rw [assignTarget]
    refine Gen.gives_pure fun t ht => ?_
    cases ht
    exact aims_varTarget (by simpa [Expr.plain] using h)
  | .member _ object name, h => by
    rw [assignTarget]
    refine (gives_expr linker object (by simpa [Expr.plain] using h)).map fun o ho t ht => ?_
    cases ht
    exact (ho.emitOne (tame_string name)).aims
  | .index _ object key, h => by
    rw [Expr.plain, Bool.and_eq_true] at h
    rw [assignTarget]
    refine (gives_expr linker object h.1).bind fun o ho =>
      (gives_expr linker key h.2).map fun k hk t ht => ?_
    cases ht
    exact (ho.append hk).aims
  | .missing, _ => by
    rw [assignTarget]
    exact Gen.gives_throw _
  | .number .., _ | .text .., _ | .boolean .., _ | .null _, _ | .list .., _ | .dict .., _
  | .binary .., _ | .unary .., _ | .assign .., _ | .call .., _ | .func .., _ => by
    simp only [assignTarget]
    exact (gives_report _ _ _).after (Gen.gives_pure fun _ ht => by cases ht)

theorem gives_exprs (linker : Linker) : ∀ es : List Expr, Expr.allPlain es = true →
    Gen.Gives Fragment.Tame (exprs linker es)
  | [], _ => by
    rw [exprs]
    exact Gen.gives_pure tame_empty
  | e :: rest, h => by
    rw [Expr.allPlain, Bool.and_eq_true] at h
    rw [exprs]
    exact (gives_expr linker e h.1).bind fun _ hf =>
      (gives_exprs linker rest h.2).map fun _ hg => hf.append hg

theorem gives_exprsBackward (linker : Linker) : ∀ es : List Expr, Expr.allPlain es = true →
    Gen.Gives Fragment.Tame (exprsBackward linker es)
  | [], _ => by
    rw [exprsBackward]
    exact Gen.gives_pure tame_empty
  | e :: rest, h => by
    rw [Expr.allPlain, Bool.and_eq_true] at h
    rw [exprsBackward]
    exact (gives_exprsBackward linker rest h.2).bind fun _ hg =>
      (gives_expr linker e h.1).map fun _ hf => hg.append hf

theorem gives_entriesBackward (linker : Linker) : ∀ entries : List Entry,
    Entry.allPlain entries = true → Gen.Gives Fragment.Tame (entriesBackward linker entries)
  | [], _ => by
    rw [entriesBackward]
    exact Gen.gives_pure tame_empty
  | .mk key value :: rest, h => by
    rw [Entry.allPlain, Bool.and_eq_true, Bool.and_eq_true] at h
    rw [entriesBackward]
    exact (gives_entriesBackward linker rest h.2).bind fun _ hl =>
      (gives_expr linker value h.1.2).bind fun _ hv =>
        (gives_expr linker key h.1.1).map fun _ hk => (hl.append hv).append hk

theorem gives_paramsBackward (linker : Linker) : ∀ params : List Param,
    Param.allPlain params = true → Gen.Gives Fragment.Tame (paramsBackward linker params)
  | [], _ => by
    rw [paramsBackward]
    exact Gen.gives_pure tame_empty
  | .mk name guard :: rest, h => by
    rw [Param.allPlain, Bool.and_eq_true] at h
    rw [paramsBackward]
    exact (gives_paramsBackward linker rest h.2).bind fun _ hl =>
      (gives_guardExpr linker guard h.1).map fun _ hg => (hl.append hg).emitOne (tame_string name)

theorem gives_guardExpr (linker : Linker) : ∀ guard : Option Expr, Expr.plainOption guard = true →
    Gen.Gives Fragment.Tame (guardExpr linker guard)
  | none, _ => by
    rw [guardExpr]
    exact Gen.gives_pure tame_pushNull
  | some e, h => by
    rw [guardExpr]
    exact gives_expr linker e h

theorem gives_functionBody (linker : Linker) : ∀ b : Block, b.plain = true →
    Gen.Gives Fragment.Tame (functionBody linker b)
  | .mk _ body, h => by
    have hends : ∀ ins ∈ [bare .pushNull, bare .ret], ins.Tame := List.forall_mem_cons.mpr
      ⟨tame_bare rfl, List.forall_mem_singleton.mpr (tame_bare rfl)⟩
    rw [functionBody]
    refine (gives_stmts linker Place.top body h).bind fun f hf => ?_
    split
    · refine Gen.gives_pure ?_
      split
      · exact hf
      · exact hf.emit hends
    · exact Gen.gives_pure (hf.emit hends)

theorem gives_stmts (linker : Linker) (place : Place) : ∀ body : List Stmt,
    Stmt.allPlain body = true → Gen.Gives Fragment.Tame (stmts linker place body)
  | [], _ => by
    rw [stmts]
    exact Gen.gives_pure tame_empty
  | s :: rest, h => by
    rw [Stmt.allPlain, Bool.and_eq_true] at h
    rw [stmts]
    exact (gives_stmt linker place s h.1).bind fun _ hf =>
      (gives_stmts linker place rest h.2).map fun _ hg => hf.discard.append hg

theorem gives_blockStmts (linker : Linker) (place : Place) : ∀ b : Block, b.plain = true →
    Gen.Gives Fragment.Tame (blockStmts linker place b)
  | .mk _ body, h => by
    rw [blockStmts]
    exact gives_stmts linker place body h

theorem gives_block (linker : Linker) (place : Place) : ∀ b : Block, b.plain = true →
    Gen.Gives Fragment.Tame (block linker place b)
  | .mk _ body, h => by
    rw [block]
    exact (gives_stmts linker place.inScope body h).map fun _ hf => hf.inScope

theorem gives_blockOption (linker : Linker) (place : Place) : ∀ b : Option Block,
    Block.plainOption b = true → Gen.Gives OptionTame (blockOption linker place b)
  | none, _ => by
    rw [blockOption]
    exact Gen.gives_pure .none
  | some b, h => by
    rw [blockOption]
    exact (gives_block linker place b h).map fun _ hf => .some hf

theorem gives_branches (linker : Linker) (place : Place) : ∀ bs : List Branch,
    Branch.allPlain bs = true → Gen.Gives ArmsTame (branches linker place bs)
  | [], _ => by
    rw [branches]
    exact Gen.gives_pure fun _ harm => absurd harm List.not_mem_nil
  | .mk cond body :: rest, h => by
    rw [Branch.allPlain, Bool.and_eq_true, Bool.and_eq_true] at h
    rw [branches]
    exact (gives_expr linker cond h.1.1).bind fun _ hc =>
      (gives_block linker place body h.1.2).bind fun _ hb =>
        (gives_branches linker place rest h.2).map fun _ hrest => hrest.cons hc hb

theorem gives_cases (linker : Linker) (place : Place) : ∀ cs : List Case,
    Case.allPlain cs = true → Gen.Gives ArmsTame (cases linker place cs)
  | [], _ => by
    rw [cases]
    exact Gen.gives_pure fun _ harm => absurd harm List.not_mem_nil
  | .mk values body :: rest, h => by
    rw [Case.allPlain, Bool.and_eq_true, Bool.and_eq_true] at h
    rw [cases]
    refine (gives_alternatives linker values h.1.1 .none).bind fun test htest =>
      (gives_block linker place body h.1.2).bind fun _ hb =>
        (gives_cases linker place rest h.2).map fun _ hrest => hrest.cons ?_ hb
    cases test with
    | none => exact Fragment.tame_boolean _ _
    | some t => exact htest t rfl

theorem gives_alternatives (linker : Linker) : ∀ values : List Expr, Expr.allPlain values = true →
    ∀ {before : Option Fragment}, OptionTame before →
      Gen.Gives OptionTame (alternatives linker before values)
  | [], _, before, hbefore => by
    rw [alternatives]
    exact Gen.gives_pure hbefore
  | v :: rest, h, before, hbefore => by
    rw [Expr.allPlain, Bool.and_eq_true] at h
    rw [alternatives]
    refine (gives_expr linker v h.1).bind fun f hf => gives_alternatives linker rest h.2 (.some ?_)
    cases before with
    | none => exact tame_caseTest hf v.span
    | some t => exact (hbefore t rfl).binary (tame_caseTest hf v.span) v.span "or"

theorem gives_exprOption (linker : Linker) : ∀ e : Option Expr, Expr.plainOption e = true →
    Gen.Gives OptionTame (exprOption linker e)
  | none, _ => by
    rw [exprOption]
    exact Gen.gives_pure .none
  | some e, h => by
    rw [exprOption]
    exact (gives_expr linker e h).map fun _ hf => .some hf

theorem gives_stmtOption (linker : Linker) (place : Place) : ∀ s : Option Stmt,
    Stmt.plainOption s = true → Gen.Gives Fragment.Tame (stmtOption linker place s)
  | none, _ => by
    rw [stmtOption]
    exact Gen.gives_pure tame_empty
  | some s, h => by
    rw [stmtOption]
    exact (gives_stmt linker place s h).map fun _ hf => hf.discard

theorem gives_stmt (linker : Linker) (place : Place) : ∀ s : Stmt, s.plain = true →
    Gen.Gives Fragment.Tame (stmt linker place s)
  | .expr _ x, h => by
    rw [stmt]
    exact gives_expr linker x h
  | .block body, h => by
    rw [stmt]
    exact (gives_block linker place body h).map fun _ hf => (hf.emitOne (tame_bare rfl)).mark _ _
  | .cond s bs otherwise, h => by
    rw [Stmt.plain, Bool.and_eq_true] at h
    rw [stmt]
    exact (gives_branches linker place bs h.1).bind fun _ harms =>
      (gives_blockOption linker place otherwise h.2).map fun _ hother =>
        (tame_chain harms hother).mark _ _
  | .whileLoop s cond body, h => by
    rw [Stmt.plain, Bool.and_eq_true] at h
    rw [stmt]
    exact (gives_expr linker cond h.1).bind fun _ hc =>
      (gives_blockStmts linker place.inLoop body h.2).map fun _ hb =>
        (tame_loop tame_empty (OptionTame.some hc) hb.inScope tame_empty).mark _ _
  | .forLoop s init cond step body, h => by
    rw [Stmt.plain, Bool.and_eq_true, Bool.and_eq_true, Bool.and_eq_true] at h
    rw [stmt]
    exact (gives_stmtOption linker place.inScope init h.1.1.1).bind fun _ hi =>
      (gives_exprOption linker cond h.1.1.2).bind fun _ hc =>
        (gives_blockStmts linker place.inLoop body h.2).bind fun _ hb =>
          (gives_stmtOption linker place.inScope step h.1.2).map fun _ hn =>
            (tame_loop hi hc hb.inScope hn).mark _ _
  | .loop s count body, h => by
    rw [Stmt.plain, Bool.and_eq_true] at h
    rw [stmt]
    exact (gives_expr linker count h.1).bind fun _ hc =>
      (gives_blockStmts linker place.inLoop body h.2).map fun _ hb => tame_repeatLoop hc hb.inScope s
  | .each s name source body, h => by
    rw [Stmt.plain, Bool.and_eq_true, Bool.and_eq_true, bne_iff_ne] at h
    rw [stmt]
    exact (gives_expr linker source h.1.2).bind fun _ hx =>
      (gives_blockStmts linker place.inLoop body h.2).map fun _ hb => tame_eachLoop h.1.1 hx hb s
  | .select s subject cs otherwise, h => by
    rw [Stmt.plain, Bool.and_eq_true, Bool.and_eq_true] at h
    rw [stmt]
    refine (gives_expr linker subject h.1.1).bind fun _ hx => ?_
    split
    · exact Gen.gives_throw _
    · exact (gives_cases linker place.inScope cs h.1.2).bind fun _ htests =>
        (gives_blockOption linker place.inScope otherwise h.2).map fun _ hother =>
          tame_selectChain hx htests hother s
  | .impl s method type params body, h => by
    rw [Stmt.plain, Bool.and_eq_true] at h
    rw [stmt]
    split
    · exact (gives_report _ _ _).after (Gen.gives_pure tame_pushNull)
    · rename_i htype
      refine (gives_checkDistinct _ _ _ _ _).after ?_
      exact (gives_paramsBackward linker params h.1).bind fun _ hps =>
        (gives_functionBody linker body h.2).map fun _ hb =>
          ((hps.function hb _ _).emitBinding
            (join_ne_exports method (Bool.eq_false_iff.mpr htype)) .inner).mark _ _
  | .typeDef s name fields, h => by
    rw [Stmt.plain, Bool.and_eq_true, bne_iff_ne, Bool.not_eq_true'] at h
    rw [stmt]
    exact (gives_checkTypeDef s name fields).after (Gen.gives_pure (tame_typeDefCode h.1 h.2 s fields))
  | .ret s value, h => by
    rw [stmt]
    refine (gives_exprOption linker value h).map fun v hv => Fragment.Tame.mark ?_ _ _
    cases v with
    | none => exact tame_pushNull.emitOne (tame_bare rfl)
    | some f => exact (hv f rfl).emitOne (tame_bare rfl)
  | .leave s, _ => by
    rw [stmt]
    exact Gen.gives_pure ((tame_exit _ _).mark _ _)
  | .again s, _ => by
    rw [stmt]
    exact Gen.gives_pure ((tame_exit _ _).mark _ _)
  | .imports s path names, h => by
    rw [Stmt.plain, Bool.and_eq_true, bne_iff_ne, List.all_eq_true] at h
    rw [stmt]
    exact gives_importStmt linker h.1 (fun name hname => bne_iff_ne.mp (h.2 name hname)) s
  | .exports s names, h => by
    cases h
  | .missing, _ => by
    rw [stmt]
    exact Gen.gives_throw _

end

end Compiler
end ScriptEngine
