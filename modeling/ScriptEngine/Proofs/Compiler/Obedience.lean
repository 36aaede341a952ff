import ScriptEngine.Proofs.Compiler.Loops
import ScriptEngine.Proofs.Text.Keys

/-!
# Trees that use names as agreed

A tree that assigns to agreed scopes and binds agreed names compiles to code that does so, too. The names
that loops keep for themselves are bound in their scopes only, and every counted loop is known.
-/

namespace ScriptEngine

/-!
# Constructs

One lemma for each layout function of the compiler that its code leaves the scopes as they were, if
the code of its parts does.
-/

namespace Fragment
namespace Steady

variable {u : Usage} {f g : Fragment} {x : Option Mark} {l : List (List Text)}

open Instruction

theorem empty : Fragment.empty.Steady u l x :=
  Secures.empty

theorem pushNull : (ofCode [bare .pushNull]).Steady u l x :=
  plain (plain_bare rfl rfl)

theorem number (span : Span) (y : Float) : (Fragment.number span y).Steady u l x :=
  (plain (plain_number y)).mark (by decide) _

theorem text (span : Span) (s : Text) : (Fragment.text span s).Steady u l x :=
  (plain (plain_string s)).mark (by decide) _

theorem boolean (span : Span) (y : Bool) : (Fragment.boolean span y).Steady u l x :=
  (plain (plain_boolean y)).mark (by decide) _

theorem null (span : Span) : (Fragment.null span).Steady u l x :=
  pushNull.mark (by decide) _

theorem var {name : Text} (h : u.Reads name l) (span : Span) : (Fragment.var span name).Steady u l x :=
  (plain (plain_getVar h)).mark (by decide) _

theorem list (hf : f.Steady u l x) (span : Span) (n : Nat) : (Fragment.list span n f).Steady u l x :=
  (hf.emit (cons (plain_count n) (plain (plain_bare rfl rfl)))).mark (by decide) _

theorem dict (hf : f.Steady u l x) (span : Span) (n : Nat) : (Fragment.dict span n f).Steady u l x :=
  (hf.emit (cons (plain_count n) (plain (plain_bare rfl rfl)))).mark (by decide) _

/-- The right operand of `and` and `or`, which may be skipped. -/
theorem shortCircuit {skip : Operation} {expected : Bool}
    (hskip : ∀ d, (withDistance skip d).Stands (.jumpPeek expected d)) (hf : f.Steady u l x)
    (hg : g.Steady u l x) :
    (f.emit [.withDistance skip (1 + g.length), .bare .pop] ++ g).Steady u l x := by
  have hright : (ofCode [.bare .pop] ++ g).Steady u l x :=
    (plain (plain_bare rfl rfl)).append hg
  have hskips := Steady.skip (fun d => ⟨_, hskip d, Or.inr ⟨_, rfl⟩⟩) hright
  rw [emit_eq, ofCode_cons, append_assoc, append_assoc]
  refine hf.append ?_
  rw [length_append, length_ofCode, List.length_singleton, Int.natCast_add] at hskips
  exact hskips

theorem binary (hf : f.Steady u l x) (hg : g.Steady u l x) (span : Span) (op : Text) :
    (Fragment.binary span op f g).Steady u l x := by
  refine Secures.mark ?_ (by decide) _
  split
  · exact shortCircuit stands_jumpIfFalsePeek hf hg
  split
  · exact shortCircuit stands_jumpIfTruePeek hf hg
  · exact (hf.append hg).emit (cons (plain_count 2) (plain (plain_dispatch op)))

theorem unary (hf : f.Steady u l x) (span : Span) (op : Text) :
    (Fragment.unary span op f).Steady u l x := by
  refine (hf.emit ?_).mark (by decide) _
  split
  · exact plain (plain_bare rfl rfl)
  split
  · exact plain (plain_bare rfl rfl)
  · exact cons (plain_count 1) (plain (plain_dispatch op))

theorem call (hf : f.Steady u l x) (hg : g.Steady u l x) (span : Span) (n : Nat) :
    (Fragment.call span n f g).Steady u l x :=
  (((hf.emit (plain (plain_count n))).append hg).emit (plain (plain_bare rfl rfl))).mark (by decide) _

theorem member (hf : f.Steady u l x) (span : Span) (name : Text) :
    (Fragment.member span f name).Steady u l x :=
  (hf.emit (cons (plain_string name) (plain (plain_bare rfl rfl)))).mark (by decide) _

theorem index (hf : f.Steady u l x) (hg : g.Steady u l x) (span : Span) :
    (Fragment.index span f g).Steady u l x :=
  ((hf.append hg).emit (plain (plain_bare rfl rfl))).mark (by decide) _

/-- The instructions that bind the value on the stack to a name. -/
theorem secures_bindTop {t : Text} {scope : Scope} (h : u.Binds scope t l) :
    (ofCode (Fragment.bindTop t scope)).Secures u (.still l) ((Op.assign scope).after ⟨l, .named t⟩) x := by
  have hempty : (ofCode [bare .pushEmpty]).Secures u (.still l) ⟨l, .marker⟩ x := by
    have hins : (bare .pushEmpty).Stands (.push .empty) := stands_bare rfl
    exact .one hins rfl trivial fun _ _ _ _ hnext => hnext
  have hname : (ofCode [string t]).Secures u ⟨l, .marker⟩ ⟨l, .named t⟩ x :=
    .one (stands_string _) rfl trivial fun _ _ _ _ hnext => hnext
  have hassign : (ofCode [bare (assignOp scope)]).Secures u ⟨l, .named t⟩
      ((Op.assign scope).after ⟨l, .named t⟩) x :=
    .one (Takes.stands_assign scope) rfl h fun _ _ _ _ hnext => hnext
  exact hempty.append (hname.append hassign)

/-- What is gained by binding a name may be forgotten. -/
theorem still_weaker (scope : Scope) (t : Text) (l : List (List Text)) :
    (Mark.still l).Weaker ((Op.assign scope).after ⟨l, .named t⟩) := by
  cases scope with
  | nearest | outer => exact .refl _
  | inner =>
    cases l with
    | nil => exact .refl _
    | cons names l =>
      have hrest : List.Forall₂ (fun x y : List Text => x ⊆ y) l l :=
        List.forall₂_same.mpr fun _ _ => List.Subset.refl _
      exact ⟨.cons (List.subset_cons_self t names) hrest, rfl⟩

theorem bindTop {t : Text} {scope : Scope} (h : u.Binds scope t l) :
    (ofCode (Fragment.bindTop t scope)).Steady u l x :=
  (secures_bindTop h).behind (still_weaker scope t l)

/-- A name that a loop keeps for itself is bound in the scope of the loop. -/
theorem bindInner {t : Text} (ht : t ∈ Compiler.loopNames) (names : List Text) :
    (ofCode (Fragment.bindTop t .inner)).Secures u (.still (names :: l)) (.still ((t :: names) :: l)) x :=
  secures_bindTop (.inner ht names l)

/-- What is assigned to: a part of a container, or a name that may be assigned. -/
def Target (u : Usage) (scope : Scope) (l : List (List Text)) (x : Option Mark) (g : Fragment) : Prop :=
  g.Steady u l x ∨ ∃ t, g = varTarget t ∧ u.Binds scope t l

theorem assign_eq (span : Span) (name : Text) (scope : Scope) :
    Fragment.assign span f (some (varTarget name)) scope =
      (f ++ ofCode (Fragment.bindTop name scope)).mark "Assign" span := by
  show ((f ++ varTarget name).emit [.bare (assignOp scope)]).mark "Assign" span = _
  rw [emit_eq, append_assoc]
  rfl

theorem assign {scope : Scope} (hscope : u.scope scope = true) (hf : f.Steady u l x)
    (hg : Target u scope l x g) (span : Span) :
    (Fragment.assign span f (some g) scope).Steady u l x := by
  rcases hg with hg | ⟨t, rfl, ht⟩
  · have hassign : (ofCode [bare (assignOp scope)]).Steady u l x := by
      refine .one (Takes.stands_assign scope) rfl hscope fun _ _ _ _ hnext => ?_
      cases scope <;> exact hnext
    exact ((hf.append hg).emit hassign).mark (by decide) _
  · rw [assign_eq]
    exact (hf.append (bindTop ht)).mark (by decide) _

theorem function {n : Nat} {selfType : Text} (hf : f.Steady u l x)
    (hg : g.Secures u .entry (.still l) none) : (Fragment.function f n selfType g).Steady u l x := by
  unfold Fragment.function
  dsimp only
  rw [emit_eq, append_assoc]
  refine Secures.append ?_ (build hg)
  split
  · exact hf.emit (plain (plain_count n))
  · exact hf.emit (cons (plain_pushType selfType)
      (cons (plain_string "self") (plain (plain_count (n + 1)))))

theorem discard (hf : f.Steady u l x) : f.discard.Steady u l x :=
  hf.emit (plain (plain_bare rfl rfl))

theorem inScope (hf : f.Steady u ([] :: l) x) : (Fragment.inScope f).Steady u l x :=
  (Secures.enter.append hf).emit .close

theorem arms {branches : List (Fragment × Fragment)} {other : Option Fragment}
    (hbranches : ∀ arm ∈ branches, arm.1.Steady u l x ∧ arm.2.Steady u l x)
    (hother : ∀ f, other = some f → f.Steady u l x) : (Fragment.arms branches other).Steady u l x := by
  induction branches with
  | nil =>
    cases other with
    | none => exact empty
    | some f => exact hother f rfl
  | cons arm rest ih =>
    obtain ⟨cond, body⟩ := arm
    obtain ⟨hcond, hbody⟩ := hbranches (cond, body) List.mem_cons_self
    have htail := ih fun arm harm => hbranches arm (List.mem_cons_of_mem _ harm)
    have hfull : ((cond.emit [.withDistance .jumpIfFalse (body.length + 1)] ++ body).emit
        [.withDistance .jump (Fragment.arms rest other).length] ++
          Fragment.arms rest other).Steady u l x := by
      rw [emit_eq, emit_eq, append_assoc, append_assoc, append_assoc]
      exact hcond.append (choose hbody htail)
    cases rest with
    | cons => exact hfull
    | nil =>
      cases other with
      | some => exact hfull
      | none =>
        show (cond.emit [.withDistance .jumpIfFalse body.length] ++ body).Steady u l x
        rw [emit_eq, append_assoc]
        exact hcond.append (Steady.skip (fun d => ⟨_, stands_jumpIfFalse d, Or.inl rfl⟩) hbody)

theorem chain {branches : List (Fragment × Fragment)} {other : Option Fragment}
    (hbranches : ∀ arm ∈ branches, arm.1.Steady u l x ∧ arm.2.Steady u l x)
    (hother : ∀ f, other = some f → f.Steady u l x) :
    (Fragment.chain branches other).Steady u l x :=
  (arms hbranches hother).emit pushNull

theorem assignStmt {name : Text} {scope : Scope} (h : u.Binds scope name l) (hf : f.Steady u l x)
    (span : Span) : (Compiler.assignStmt span name f scope).Steady u l x :=
  (assign h.1 hf (Or.inr ⟨name, rfl, h⟩) span).discard

/-- A statement that binds a name for the loop whose scope is innermost. -/
theorem assignInner {t : Text} (ht : t ∈ Compiler.loopNames) {names : List Text}
    (hf : f.Steady u (names :: l) x) (span : Span) :
    (Compiler.assignStmt span t f .inner).Secures u (.still (names :: l)) (.still ((t :: names) :: l)) x := by
  have hpop : (ofCode [.bare .pop]).Steady u ((t :: names) :: l) x := plain (plain_bare rfl rfl)
  show (Fragment.assign span f (some (Fragment.varTarget t)) .inner).discard.Secures u _ _ x
  rw [assign_eq]
  exact ((hf.append (bindInner ht names)).mark (by decide) _).emit hpop

theorem stepPart (span : Span) (n : Nat) : (Compiler.stepPart span n).Steady u l x :=
  (var (.of_ne (by decide) l) span).index (number span _) span

/-- The value of the next step of the iterator that the innermost scope binds. -/
theorem nextCall {names : List Text} (h : Compiler.hiddenIter ∈ names) (span : Span) :
    (Fragment.call span 0 Fragment.empty
      (Fragment.member span (Fragment.var span Compiler.hiddenIter) "next")).Steady u (names :: l) x :=
  call empty ((var (.inner h l) span).member span _) span 0

/-- The body of a loop over a source. -/
theorem turn {name : Text} (hname : u.name name = true) (hg : g.Steady u ([] :: l) (some (.still l))) (span : Span) :
    (Fragment.turn span name g).Steady u l (some (.still l)) :=
  inScope ((assignStmt (.of_name u.inner hname _) (stepPart span 1) span).append hg)

theorem eachLoop {name : Text} {names : List Text}
    (hnames : names = [Compiler.hiddenStep, Compiler.hiddenIter]) (hname : u.name name = true)
    (hf : ∀ {l x}, f.Steady u l x) (hentry : f.length ≤ Slot.limit → f.Records 0 f.length)
    (hg : g.Steady u ([] :: names :: l) (some (.still (names :: l))))
    (hbody : g.Steady u [[]] (some (.still [])))
    (hlays : g.length ≤ Slot.limit → ∃ a : Layout, g.Takes a.enter.enter a.enter.enter (some a.enter))
    (span : Span) : (Compiler.eachLoop span name f g).Steady u l x := by
  have hiter : (Compiler.assignStmt span Compiler.hiddenIter
      (Fragment.call span 0 Fragment.empty (Fragment.member span f "iter")) .inner).Secures u
        (.still ([] :: l)) (.still ([Compiler.hiddenIter] :: l)) x :=
    assignInner (by decide) (call empty (hf.member span "iter") span 0) span
  have hfirst : (Compiler.nextStep span .inner).Secures u (.still ([Compiler.hiddenIter] :: l))
      (.still (names :: l)) x := by
    rw [hnames]
    exact assignInner (by decide) (nextCall List.mem_cons_self span) span
  have hnext : (Compiler.nextStep span .nearest).Steady u (names :: l) x := by
    rw [hnames]
    exact assignStmt (.nearest (by decide) List.mem_cons_self l)
      (nextCall (List.mem_cons_of_mem _ List.mem_cons_self) span) span
  have hplaces : (turns span name f g).LoopAt u "Each" := by
    refine loopAt_turns hf hentry (turn hname hbody span) fun hlength => ?_
    obtain ⟨a, hg⟩ := hlays (by have := length_turn span name g; omega)
    have hbind := (Takes.stepPart (a := a.enter.enter) (x := some a.enter) span 1).assignStmt span name .inner
    exact ⟨_, _, _, (hbind.append hg).inScope⟩
  rw [eachLoop_eq]
  refine (loop (hiter.append hfirst) ?_ (turn hname hg span) hnext).markLoop hplaces _
  intro c hc
  rw [← Option.some.inj hc]
  exact stepPart span 2

theorem repeatLoop {names : List Text} (hnames : names = [Compiler.hiddenIndex, Compiler.hiddenCount])
    (hf : ∀ {l x}, f.Steady u l x) (hg : g.Steady u (names :: l) (some (.still (names :: l))))
    (hbody : g.Steady u [] (some (.still []))) (hscope : ∃ h, g = Fragment.inScope h) (span : Span) :
    (Compiler.repeatLoop span f g).Steady u l x := by
  have hpop : ∀ {l : List (List Text)}, (ofCode [.bare .pop]).Steady u l x := plain (plain_bare rfl rfl)
  have hzero : (ofCode [.bare .pop, .count 0]).Steady u ([Compiler.hiddenCount] :: l) x :=
    cons (plain_bare rfl rfl) (plain (plain_count 0))
  have hcount : (ofCode (Fragment.bindTop Compiler.hiddenCount .inner)).Secures u (.still ([] :: l))
      (.still ([Compiler.hiddenCount] :: l)) x := bindInner (by decide) []
  have hindex : (ofCode (Fragment.bindTop Compiler.hiddenIndex .inner)).Secures u
      (.still ([Compiler.hiddenCount] :: l)) (.still (names :: l)) x := by
    rw [hnames]
    exact bindInner (by decide) _
  have hinit : (f.emit counting).Secures u (.still ([] :: l)) (.still (names :: l)) x :=
    hf.emit (((hcount.append hzero).append hindex).append hpop)
  have hstep : (ofCode [.withText .increment Compiler.hiddenIndex]).Steady u (names :: l) x := by
    refine .one (stands_increment _) rfl ⟨names, l, rfl, ?_⟩ fun _ _ _ _ hnext => hnext
    rw [hnames]
    exact List.mem_cons_self
  rw [repeatLoop_eq]
  refine (loop hinit ?_ hg hstep).markLoop (loopAt_rounds hf hbody hscope) _
  intro c hc
  rw [← Option.some.inj hc]
  exact cons (plain_getVar (.of_ne (by decide) _)) (cons (plain_getVar (.of_ne (by decide) _))
    (cons (plain_count 2) (plain (plain_dispatch _))))

theorem selectChain {cases : List (Fragment × Fragment)} {other : Option Fragment}
    (hf : f.Steady u ([] :: l) x)
    (hcases : ∀ arm ∈ cases, arm.1.Steady u ([] :: l) x ∧ arm.2.Steady u ([] :: l) x)
    (hother : ∀ f, other = some f → f.Steady u ([] :: l) x) (span : Span) :
    (Compiler.selectChain span f cases other).Steady u l x := by
  have hhead : (ofCode [.bare .scopeEnter] ++
      f.emit (Fragment.bindTop Compiler.hiddenMatch .inner ++ [Instruction.bare .pop])).Secures u (.still l)
        (.still ([] :: l)) x :=
    Secures.enter.append (hf.emit ((bindTop (.of_name u.inner u.subjects _)).append (plain (plain_bare rfl rfl))))
  have hchoice : (if cases.isEmpty then other.getD Fragment.empty
      else (Fragment.chain cases other).discard).Steady u ([] :: l) x := by
    split
    · cases other with
      | none => exact empty
      | some f => exact hother f rfl
    · exact (chain hcases hother).discard
  refine ((hhead.append hchoice).emit ?_).mark (by decide) _
  rw [ofCode_cons]
  exact Secures.close.append pushNull

theorem caseTest (hf : f.Steady u l x) (span : Span) : (Compiler.caseTest span f).Steady u l x :=
  (var (.of_ne (by decide) l) span).binary hf span _

theorem foldNames {stmt : Text → Fragment} {names : List Text}
    (h : ∀ name ∈ names, (stmt name).Steady u l x) (hf : f.Steady u l x) :
    (names.foldl (fun acc name => acc ++ stmt name) f).Steady u l x := by
  induction names generalizing f with
  | nil => exact hf
  | cons name rest ih =>
    exact ih (fun name hmem => h name (List.mem_cons_of_mem _ hmem))
      (hf.append (h name List.mem_cons_self))

theorem importCode {path : Text} {names : List Text}
    (hnames : (if names.isEmpty then u.name (Path.base path) else names.all u.name) = true)
    (span : Span) : (Compiler.importCode span path names).Steady u l x := by
  have hmodule : u.Reads (Key.module path) l := .of_ne (Key.module_ne (by decide) path) l
  unfold Compiler.importCode
  dsimp only
  split at hnames
  · rename_i hempty
    rw [if_pos hempty]
    exact assignStmt (.of_name u.inner hnames l) (var hmodule span) span
  · rename_i hempty
    rw [if_neg hempty]
    refine foldNames (fun name hmem => ?_) empty
    exact assignStmt (.of_name u.inner (List.all_eq_true.mp hnames name hmem) l)
      ((var hmodule span).member span name) span

theorem exportCode {names : List Text} (hnames : ∀ name ∈ names, u.Reads name l) (span : Span) (first : Bool) :
    (Compiler.exportCode span first names).Steady u l x := by
  have hopening : (if first then Compiler.assignStmt span Key.exports
      (Fragment.dict span 0 Fragment.empty) .inner else Fragment.empty).Steady u l x := by
    split
    · exact assignStmt (.of_name u.inner u.exports l) (dict empty span 0) span
    · exact empty
  refine foldNames (fun name hname => ?_) hopening
  have htarget : ((Fragment.var span Key.exports).emit [.string name]).Steady u l x :=
    (var (.of_ne (by decide) l) span).emit (plain (plain_string name))
  exact (assign u.nearest (var (hnames name hname) span) (Or.inl htarget) span).discard

theorem linked (hf : f.Steady u l x) {kind : String} (hkind : Compiler.ofLoop kind = false) (span : Span) :
    (Compiler.linked span kind f).Steady u l x :=
  (hf.emit pushNull).mark hkind _

theorem typeDef {name : Text} (hname : u.name name = true) (htype : u.Types name) (span : Span) (fields : List Text) :
    (Compiler.typeDefCode span name fields).Steady u l x := by
  have hnames : ∀ names : List Text, (ofCode (names.map Instruction.string)).Steady u l x := by
    intro names
    induction names with
    | nil => exact nil
    | cons name rest ih => exact cons (plain_string name) ih
  have hbuild : (ofCode [.count fields.length, .withText .buildType name]).Steady u l x :=
    cons (plain_count _) (plain (plain_buildType htype))
  exact (((hnames _).append hbuild).append (bindTop (.of_name u.inner hname l))).mark (by decide) _

end Steady
end Fragment

/-!
# Trees
-/

/-- Code of trees may read the name. -/
def Usage.legible (u : Usage) (name : Text) : Bool :=
  !u.apart || name != Compiler.hiddenIter

theorem Usage.Reads.of_legible {u : Usage} {name : Text} (h : u.legible name = true) (scopes : List (List Text)) :
    u.Reads name scopes := by
  intro hapart heq
  rw [Usage.legible, hapart, heq] at h
  exact absurd h (by decide)

/-- Trees may define a record type of that name. -/
def Usage.titled (u : Usage) (name : Text) : Bool :=
  !u.apart || !name.isEmpty

theorem Usage.Types.of_titled {u : Usage} {name : Text} (h : u.titled name = true) : u.Types name := by
  intro hapart
  rw [Usage.titled, hapart] at h
  exact Bool.not_eq_true' _ ▸ h

/-- An assignment to the expression binds no other name than agreed. -/
def Expr.assignable (u : Usage) : Expr → Bool
  | .var _ name => u.name name
  | _ => true

mutual

/-- The expression assigns to scopes and uses names only as agreed. -/
def Expr.obeys (u : Usage) : Expr → Bool
  | .number .. | .text .. | .boolean .. | .null .. | .missing => true
  | .var _ name => u.legible name
  | .list _ items => Expr.allObey u items
  | .dict _ entries => Entry.allObey u entries
  | .binary _ _ left right => left.obeys u && right.obeys u
  | .unary _ _ operand => operand.obeys u
  | .assign _ target value scope => u.scope scope && target.assignable u && target.obeys u && value.obeys u
  | .call _ callee args => callee.obeys u && Expr.allObey u args
  | .member _ object _ => object.obeys u
  | .index _ object key => object.obeys u && key.obeys u
  | .func _ name params body =>
    (name.isEmpty || u.name name) && Param.allObey u params && body.obeys u

def Expr.allObey (u : Usage) : List Expr → Bool
  | [] => true
  | e :: rest => e.obeys u && Expr.allObey u rest

def Expr.optionObey (u : Usage) : Option Expr → Bool
  | none => true
  | some e => e.obeys u

def Entry.allObey (u : Usage) : List Entry → Bool
  | [] => true
  | .mk key value :: rest => key.obeys u && value.obeys u && Entry.allObey u rest

def Param.allObey (u : Usage) : List Param → Bool
  | [] => true
  | .mk _ guard :: rest => Expr.optionObey u guard && Param.allObey u rest

def Block.obeys (u : Usage) : Block → Bool
  | .mk _ stmts => Stmt.allObey u stmts

def Block.optionObey (u : Usage) : Option Block → Bool
  | none => true
  | some b => b.obeys u

def Branch.allObey (u : Usage) : List Branch → Bool
  | [] => true
  | .mk cond body :: rest => cond.obeys u && body.obeys u && Branch.allObey u rest

def Case.allObey (u : Usage) : List Case → Bool
  | [] => true
  | .mk values body :: rest => Expr.allObey u values && body.obeys u && Case.allObey u rest

/-- The statement assigns to scopes and uses names only as agreed. -/
def Stmt.obeys (u : Usage) : Stmt → Bool
  | .expr _ x => x.obeys u
  | .block body => body.obeys u
  | .cond _ branches otherwise => Branch.allObey u branches && Block.optionObey u otherwise
  | .whileLoop _ cond body => cond.obeys u && body.obeys u
  | .forLoop _ init cond step body =>
    Stmt.optionObey u init && Expr.optionObey u cond && Stmt.optionObey u step && body.obeys u
  | .loop _ count body => count.obeys u && body.obeys u
  | .each _ name source body => u.name name && source.obeys u && body.obeys u
  | .select _ subject cases otherwise =>
    subject.obeys u && Case.allObey u cases && Block.optionObey u otherwise
  | .impl _ method type params body =>
    u.name (Key.join method type) && Param.allObey u params && body.obeys u
  | .ret _ value => Expr.optionObey u value
  | .typeDef _ name _ => u.name name && u.titled name
  | .imports _ path names => if names.isEmpty then u.name (Path.base path) else names.all u.name
  | .exports _ names => names.all u.legible
  | .leave .. | .again .. | .missing => true

def Stmt.optionObey (u : Usage) : Option Stmt → Bool
  | none => true
  | some s => s.obeys u

/-- The statements of the list assign to scopes and use names only as agreed. -/
def Stmt.allObey (u : Usage) : List Stmt → Bool
  | [] => true
  | s :: rest => s.obeys u && Stmt.allObey u rest

end

namespace Compiler

namespace Place

/-- There are scopes in front of a statement at the place, at least those inside the loop around it. -/
def Opens (place : Place) (l : List (List Text)) : Prop :=
  ∀ n, place.loop = some n → n ≤ place.depth ∧ place.depth - n ≤ l.length

/-- The mark that the exits of the loop around the place expect. -/
def target (place : Place) (l : List (List Text)) : Option Mark :=
  place.loop.map fun n => .still (l.drop (place.depth - n))

variable {u : Usage} {place : Place} {l : List (List Text)}

theorem opens_top : Place.top.Opens [] :=
  fun _ h => by cases h

theorem Opens.inScope (h : place.Opens l) (names : List Text) : place.inScope.Opens (names :: l) := by
  intro n hn
  obtain ⟨hle, hlength⟩ := h n hn
  refine ⟨Nat.le_succ_of_le hle, ?_⟩
  show place.depth + 1 - n ≤ l.length + 1
  omega

theorem opens_inLoop (place : Place) (names : List Text) (l : List (List Text)) :
    place.inLoop.Opens (names :: l) := by
  intro n hn
  cases hn
  refine ⟨Nat.le_succ _, ?_⟩
  show place.depth + 2 - (place.depth + 1) ≤ l.length + 1
  omega

theorem Opens.target_inScope (h : place.Opens l) (names : List Text) :
    place.inScope.target (names :: l) = place.target l := by
  obtain ⟨depth, loop⟩ := place
  cases loop with
  | none => rfl
  | some n =>
    have hn : n ≤ depth := (h n rfl).1
    show some (Mark.still ((names :: l).drop (depth + 1 - n))) = some (.still (l.drop (depth - n)))
    rw [Nat.succ_sub hn, List.drop_succ_cons]

theorem target_inLoop (place : Place) (names : List Text) (l : List (List Text)) :
    place.inLoop.target (names :: l) = some (.still l) := by
  show some (Mark.still ((names :: l).drop (place.depth + 2 - (place.depth + 1)))) = _
  rw [show place.depth + 2 - (place.depth + 1) = 1 by omega]
  rfl

theorem Opens.admits (h : place.Opens l) : place.Admits ⟨[], place.depth, false, true⟩ :=
  ⟨rfl, rfl, fun n hn => (h n hn).1⟩

/-- A loop exit at the place closes as many scopes as lie inside the loop. -/
theorem Opens.exit (h : place.Opens l) {b : Mark} (again : Bool) :
    (Fragment.exit again place.closes).Secures u (.still l) b (place.target l) := by
  obtain ⟨depth, loop⟩ := place
  cases loop with
  | none =>
    cases again
    · exact .halt (Instruction.stands_bare rfl) (Or.inr ⟨_, rfl⟩)
    · exact .halt (Instruction.stands_bare rfl) (Or.inr ⟨_, rfl⟩)
  | some n => exact Fragment.Secures.exit (h n rfl).2

end Place

section
variable {u : Usage}

/-- The code of an expression has an entry of its own. -/
theorem records_expr {linker : Linker} {e : Expr} {p p' : Progress} {f : Fragment} (h : expr linker e p = .ok f p')
    (hlength : f.length ≤ Slot.limit) : f.Records 0 f.length := by
  obtain ⟨ty, hstart, hstop, -⟩ := takes_expr e h hlength .top
  have hcode : f.code ≠ [] := by
    intro hnil
    rw [Fragment.length, hnil] at hstop
    exact Layout.push_ne _ _ (hstop.symm.trans hstart)
  obtain ⟨g, kind, span, rfl⟩ := expr_marked h
  rw [Fragment.length_mark]
  rw [Fragment.mark_code] at hcode
  exact Fragment.records_mark hcode kind span

theorem steady_importStmt {linker : Linker} {s : Span} {path : Text} {names : List Text}
    {p p' : Progress} {f : Fragment} {l : List (List Text)} {x : Option Mark}
    (h : importStmt linker s path names p = .ok f p')
    (hnames : (if names.isEmpty then u.name (Path.base path) else names.all u.name) = true) :
    f.Steady u l x := by
  unfold importStmt at h
  cases linker with
  | absent | closed =>
    obtain ⟨_, p₁, -, h⟩ := bind_ok h
    obtain ⟨rfl, -⟩ := pure_ok h
    exact .linked .empty (by decide) s
  | modules =>
    obtain ⟨rfl, -⟩ := pure_ok h
    exact .linked (.importCode hnames s) (by decide) s

theorem steady_exportStmt {linker : Linker} {s : Span} {names : List Text} {p p' : Progress}
    {f : Fragment} {l : List (List Text)} {x : Option Mark}
    (h : exportStmt linker s names p = .ok f p') (hnames : names.all u.legible = true) : f.Steady u l x := by
  unfold exportStmt at h
  cases linker with
  | absent | closed =>
    obtain ⟨_, p₁, -, h⟩ := bind_ok h
    obtain ⟨rfl, -⟩ := pure_ok h
    exact .linked .empty (by decide) s
  | modules =>
    obtain ⟨progress, p₁, -, h⟩ := bind_ok h
    obtain ⟨_, p₂, -, h⟩ := bind_ok h
    obtain ⟨rfl, -⟩ := pure_ok h
    exact .linked (.exportCode (fun name hname => .of_legible (List.all_eq_true.mp hnames name hname) l) s _)
      (by decide) s

/-!
# The walk
-/

mutual

theorem steady_expr {linker : Linker} : ∀ (e : Expr) {p p' : Progress} {f : Fragment},
    expr linker e p = .ok f p' → e.obeys u = true → ∀ {l x}, f.Steady u l x
  | .number s y, p, p', f, h, _, l, x => by
    rw [expr] at h
    obtain ⟨rfl, -⟩ := pure_ok h
    exact .number s y
  | .text s t, p, p', f, h, _, l, x => by
    rw [expr] at h
    obtain ⟨rfl, -⟩ := pure_ok h
    exact .text s t
  | .boolean s b, p, p', f, h, _, l, x => by
    rw [expr] at h
    obtain ⟨rfl, -⟩ := pure_ok h
    exact .boolean s b
  | .null s, p, p', f, h, _, l, x => by
    rw [expr] at h
    obtain ⟨rfl, -⟩ := pure_ok h
    exact .null s
  | .var s name, p, p', f, h, hin, l, x => by
    rw [expr] at h
    rw [Expr.obeys] at hin
    obtain ⟨rfl, -⟩ := pure_ok h
    exact .var (.of_legible hin l) s
  | .list s items, p, p', f, h, hin, l, x => by
    rw [expr] at h
    rw [Expr.obeys] at hin
    obtain ⟨g, p₁, hg, h⟩ := bind_ok h
    obtain ⟨rfl, -⟩ := pure_ok h
    exact (steady_exprsBackward items hg hin).list s _
  | .dict s entries, p, p', f, h, hin, l, x => by
    rw [expr] at h
    rw [Expr.obeys] at hin
    obtain ⟨g, p₁, hg, h⟩ := bind_ok h
    obtain ⟨rfl, -⟩ := pure_ok h
    exact (steady_entriesBackward entries hg hin).dict s _
  | .binary s op left right, p, p', f, h, hin, l, x => by
    rw [expr] at h
    rw [Expr.obeys, Bool.and_eq_true] at hin
    obtain ⟨g, p₁, hg, h⟩ := bind_ok h
    obtain ⟨k, p₂, hk, h⟩ := bind_ok h
    obtain ⟨rfl, -⟩ := pure_ok h
    exact (steady_expr left hg hin.1).binary (steady_expr right hk hin.2) s op
  | .unary s op operand, p, p', f, h, hin, l, x => by
    rw [expr] at h
    rw [Expr.obeys] at hin
    obtain ⟨g, p₁, hg, h⟩ := bind_ok h
    obtain ⟨rfl, -⟩ := pure_ok h
    exact (steady_expr operand hg hin).unary s op
  | .assign s target value scope, p, p', f, h, hin, l, x => by
    rw [expr] at h
    simp only [Expr.obeys, Bool.and_eq_true] at hin
    obtain ⟨⟨⟨hscope, hassignable⟩, htarget⟩, hvalue⟩ := hin
    obtain ⟨v, p₁, hv, h⟩ := bind_ok h
    obtain ⟨t, p₂, ht, h⟩ := bind_ok h
    obtain ⟨rfl, -⟩ := pure_ok h
    cases t with
    | none => exact Fragment.Secures.mark (steady_expr value hv hvalue) (by decide) _
    | some t =>
      exact .assign hscope (steady_expr value hv hvalue)
        (steady_assignTarget target ht htarget hassignable hscope) s
  | .call s callee args, p, p', f, h, hin, l, x => by
    rw [expr] at h
    rw [Expr.obeys, Bool.and_eq_true] at hin
    obtain ⟨g, p₁, hg, h⟩ := bind_ok h
    obtain ⟨c, p₂, hc, h⟩ := bind_ok h
    obtain ⟨rfl, -⟩ := pure_ok h
    exact (steady_exprs args hg hin.2).call (steady_expr callee hc hin.1) s _
  | .member s object name, p, p', f, h, hin, l, x => by
    rw [expr] at h
    rw [Expr.obeys] at hin
    obtain ⟨g, p₁, hg, h⟩ := bind_ok h
    obtain ⟨rfl, -⟩ := pure_ok h
    exact (steady_expr object hg hin).member s name
  | .index s object key, p, p', f, h, hin, l, x => by
    rw [expr] at h
    rw [Expr.obeys, Bool.and_eq_true] at hin
    obtain ⟨o, p₁, ho, h⟩ := bind_ok h
    obtain ⟨k, p₂, hk, h⟩ := bind_ok h
    obtain ⟨rfl, -⟩ := pure_ok h
    exact (steady_expr object ho hin.1).index (steady_expr key hk hin.2) s
  | .func s name params body, p, p', f, h, hin, l, x => by
    rw [expr] at h
    simp only [Expr.obeys, Bool.and_eq_true, Bool.or_eq_true] at hin
    obtain ⟨⟨hname, hparams⟩, hbody⟩ := hin
    obtain ⟨_, p₁, -, h⟩ := bind_ok h
    obtain ⟨ps, p₂, hps, h⟩ := bind_ok h
    obtain ⟨b, p₃, hb, h⟩ := bind_ok h
    obtain ⟨rfl, -⟩ := pure_ok h
    have hfunction : (Fragment.function ps params.length Text.empty b).Steady u l x :=
      (steady_paramsBackward params hps hparams).function (secures_functionBody body hb hbody l)
    refine Fragment.Secures.mark ?_ (by decide) _
    split
    · exact hfunction
    · rename_i hempty
      have hbind : u.Binds .nearest name l := .of_name u.nearest (hname.resolve_left hempty) l
      exact hfunction.emit (Fragment.Steady.bindTop hbind)
  | .missing, p, p', f, h, _, l, x => by
    rw [expr] at h
    cases h

theorem steady_assignTarget {linker : Linker} : ∀ (e : Expr) {p p' : Progress} {f : Fragment},
    assignTarget linker e p = .ok (some f) p' → e.obeys u = true → e.assignable u = true →
    ∀ {scope l x}, u.scope scope = true → Fragment.Steady.Target u scope l x f
  | .var _ name, p, p', f, h, _, hassignable, scope, l, x, hscope => by
    rw [assignTarget] at h
    cases (pure_ok h).1
    exact Or.inr ⟨name, rfl, .of_name hscope hassignable l⟩
  | .member _ object name, p, p', f, h, hin, _, scope, l, x, _ => by
    rw [assignTarget] at h
    rw [Expr.obeys] at hin
    obtain ⟨o, p₁, ho, h⟩ := bind_ok h
    cases (pure_ok h).1
    exact Or.inl ((steady_expr object ho hin).emit
      (Fragment.Steady.plain (Instruction.plain_string name)))
  | .index _ object key, p, p', f, h, hin, _, scope, l, x, _ => by
    rw [assignTarget] at h
    rw [Expr.obeys, Bool.and_eq_true] at hin
    obtain ⟨o, p₁, ho, h⟩ := bind_ok h
    obtain ⟨k, p₂, hk, h⟩ := bind_ok h
    cases (pure_ok h).1
    exact Or.inl ((steady_expr object ho hin.1).append (steady_expr key hk hin.2))
  | .missing, p, p', f, h, _, _, _, _, _, _ => by
    rw [assignTarget] at h
    cases h
  | .number .., p, p', f, h, _, _, _, _, _, _ | .text .., p, p', f, h, _, _, _, _, _, _
  | .boolean .., p, p', f, h, _, _, _, _, _, _ | .null .., p, p', f, h, _, _, _, _, _, _
  | .list .., p, p', f, h, _, _, _, _, _, _ | .dict .., p, p', f, h, _, _, _, _, _, _
  | .binary .., p, p', f, h, _, _, _, _, _, _ | .unary .., p, p', f, h, _, _, _, _, _, _
  | .assign .., p, p', f, h, _, _, _, _, _, _ | .call .., p, p', f, h, _, _, _, _, _, _
  | .func .., p, p', f, h, _, _, _, _, _, _ => by
    simp only [assignTarget] at h
    obtain ⟨_, p₁, -, h⟩ := bind_ok h
    cases (pure_ok h).1

theorem steady_exprs {linker : Linker} : ∀ (es : List Expr) {p p' : Progress} {f : Fragment},
    exprs linker es p = .ok f p' → Expr.allObey u es = true → ∀ {l x}, f.Steady u l x
  | [], p, p', f, h, _, l, x => by
    rw [exprs] at h
    obtain ⟨rfl, -⟩ := pure_ok h
    exact .empty
  | e :: rest, p, p', f, h, hin, l, x => by
    rw [exprs] at h
    rw [Expr.allObey, Bool.and_eq_true] at hin
    obtain ⟨g, p₁, hg, h⟩ := bind_ok h
    obtain ⟨k, p₂, hk, h⟩ := bind_ok h
    obtain ⟨rfl, -⟩ := pure_ok h
    exact (steady_expr e hg hin.1).append (steady_exprs rest hk hin.2)

theorem steady_exprsBackward {linker : Linker} :
    ∀ (es : List Expr) {p p' : Progress} {f : Fragment},
    exprsBackward linker es p = .ok f p' → Expr.allObey u es = true → ∀ {l x}, f.Steady u l x
  | [], p, p', f, h, _, l, x => by
    rw [exprsBackward] at h
    obtain ⟨rfl, -⟩ := pure_ok h
    exact .empty
  | e :: rest, p, p', f, h, hin, l, x => by
    rw [exprsBackward] at h
    rw [Expr.allObey, Bool.and_eq_true] at hin
    obtain ⟨k, p₁, hk, h⟩ := bind_ok h
    obtain ⟨g, p₂, hg, h⟩ := bind_ok h
    obtain ⟨rfl, -⟩ := pure_ok h
    exact (steady_exprsBackward rest hk hin.2).append (steady_expr e hg hin.1)

theorem steady_entriesBackward {linker : Linker} :
    ∀ (es : List Entry) {p p' : Progress} {f : Fragment},
    entriesBackward linker es p = .ok f p' → Entry.allObey u es = true → ∀ {l x}, f.Steady u l x
  | [], p, p', f, h, _, l, x => by
    rw [entriesBackward] at h
    obtain ⟨rfl, -⟩ := pure_ok h
    exact .empty
  | .mk key value :: rest, p, p', f, h, hin, l, x => by
    rw [entriesBackward] at h
    simp only [Entry.allObey, Bool.and_eq_true] at hin
    obtain ⟨later, p₁, hlater, h⟩ := bind_ok h
    obtain ⟨v, p₂, hv, h⟩ := bind_ok h
    obtain ⟨k, p₃, hk, h⟩ := bind_ok h
    obtain ⟨rfl, -⟩ := pure_ok h
    exact ((steady_entriesBackward rest hlater hin.2).append (steady_expr value hv hin.1.2)).append
      (steady_expr key hk hin.1.1)

theorem steady_paramsBackward {linker : Linker} :
    ∀ (ps : List Param) {p p' : Progress} {f : Fragment},
    paramsBackward linker ps p = .ok f p' → Param.allObey u ps = true → ∀ {l x}, f.Steady u l x
  | [], p, p', f, h, _, l, x => by
    rw [paramsBackward] at h
    obtain ⟨rfl, -⟩ := pure_ok h
    exact .empty
  | .mk name guard :: rest, p, p', f, h, hin, l, x => by
    rw [paramsBackward] at h
    rw [Param.allObey, Bool.and_eq_true] at hin
    obtain ⟨later, p₁, hlater, h⟩ := bind_ok h
    obtain ⟨g, p₂, hg, h⟩ := bind_ok h
    obtain ⟨rfl, -⟩ := pure_ok h
    exact ((steady_paramsBackward rest hlater hin.2).append (steady_guardExpr guard hg hin.1)).emit
      (Fragment.Steady.plain (Instruction.plain_string name))

theorem steady_guardExpr {linker : Linker} : ∀ (e : Option Expr) {p p' : Progress} {f : Fragment},
    guardExpr linker e p = .ok f p' → Expr.optionObey u e = true → ∀ {l x}, f.Steady u l x
  | none, p, p', f, h, _, l, x => by
    rw [guardExpr] at h
    obtain ⟨rfl, -⟩ := pure_ok h
    exact .pushNull
  | some e, p, p', f, h, hin, l, x => by
    rw [guardExpr] at h
    rw [Expr.optionObey] at hin
    exact steady_expr e h hin

/-- Control never gets behind the body of a function, so anything may stand there. -/
theorem secures_functionBody {linker : Linker} : ∀ (b : Block) {p p' : Progress} {f : Fragment},
    functionBody linker b p = .ok f p' → b.obeys u = true → ∀ l, f.Secures u .entry (.still l) none
  | .mk _ body, p, p', f, h, hin, l => by
    rw [functionBody] at h
    rw [Block.obeys] at hin
    obtain ⟨g, p₁, hg, h⟩ := bind_ok h
    have hreturn : (Fragment.ofCode [.bare .pushNull, .bare .ret]).Secures u .entry (.still l) none :=
      Fragment.Steady.pushNull.append (.halt (Instruction.stands_bare rfl) (Or.inl rfl))
    cases hlast : body.getLast? with
    | none =>
      rw [hlast] at h
      obtain ⟨rfl, -⟩ := pure_ok h
      exact (secures_stmts body hg hin Place.opens_top [] (Or.inl rfl)).emit hreturn
    | some last =>
      rw [hlast] at h
      obtain ⟨rfl, -⟩ := pure_ok h
      split
      · rename_i hret
        exact secures_stmts body hg hin Place.opens_top l (Or.inr ⟨last, hlast, hret⟩)
      · exact (secures_stmts body hg hin Place.opens_top [] (Or.inl rfl)).emit hreturn

theorem secures_stmts {linker : Linker} : ∀ (body : List Stmt) {place : Place} {p p' : Progress}
    {f : Fragment} {l : List (List Text)}, stmts linker place body p = .ok f p' →
    Stmt.allObey u body = true → place.Opens l →
    ∀ l', (l' = l ∨ ∃ s, body.getLast? = some s ∧ s.isReturn = true) →
      f.Secures u (.still l) (.still l') (place.target l)
  | [], place, p, p', f, l, h, _, _, l', hl' => by
    rw [stmts] at h
    obtain ⟨rfl, -⟩ := pure_ok h
    rcases hl' with rfl | ⟨s, hs, -⟩
    · exact .empty
    · cases hs
  | s :: rest, place, p, p', f, l, h, hin, hl, l', hl' => by
    rw [stmts] at h
    rw [Stmt.allObey, Bool.and_eq_true] at hin
    obtain ⟨g, p₁, hg, h⟩ := bind_ok h
    obtain ⟨k, p₂, hk, h⟩ := bind_ok h
    obtain ⟨rfl, -⟩ := pure_ok h
    have hpop : ∀ {l x}, (Fragment.ofCode [.bare .pop]).Steady u l x :=
      .plain (Instruction.plain_bare rfl rfl)
    cases rest with
    | nil =>
      rw [stmts] at hk
      obtain ⟨rfl, -⟩ := pure_ok hk
      rw [Fragment.append_empty]
      refine (secures_stmt s hg hin.1 hl l' ?_).emit hpop
      rcases hl' with rfl | ⟨s', hs, hret⟩
      · exact Or.inl rfl
      · cases hs
        exact Or.inr hret
    | cons s' others =>
      refine ((secures_stmt s hg hin.1 hl l (Or.inl rfl)).emit hpop).append
        (secures_stmts (s' :: others) hk hin.2 hl l' ?_)
      rcases hl' with rfl | hret
      · exact Or.inl rfl
      · rw [List.getLast?_cons_cons] at hret
        exact Or.inr hret

theorem steady_blockStmts {linker : Linker} : ∀ (b : Block) {place : Place} {p p' : Progress}
    {f : Fragment} {l : List (List Text)}, blockStmts linker place b p = .ok f p' → b.obeys u = true →
    place.Opens l → f.Steady u l (place.target l)
  | .mk _ body, place, p, p', f, l, h, hin, hl => by
    rw [blockStmts] at h
    rw [Block.obeys] at hin
    exact secures_stmts body h hin hl l (Or.inl rfl)

theorem steady_block {linker : Linker} : ∀ (b : Block) {place : Place} {p p' : Progress}
    {f : Fragment} {l : List (List Text)}, block linker place b p = .ok f p' → b.obeys u = true →
    place.Opens l → f.Steady u l (place.target l)
  | .mk _ body, place, p, p', f, l, h, hin, hl => by
    rw [block] at h
    rw [Block.obeys] at hin
    obtain ⟨g, p₁, hg, h⟩ := bind_ok h
    obtain ⟨rfl, -⟩ := pure_ok h
    have hbody := secures_stmts body hg hin (hl.inScope []) ([] :: l) (Or.inl rfl)
    rw [hl.target_inScope] at hbody
    exact Fragment.Steady.inScope hbody

theorem steady_blockOption {linker : Linker} : ∀ (b : Option Block) {place : Place}
    {p p' : Progress} {f : Fragment} {l : List (List Text)},
    blockOption linker place b p = .ok (some f) p' → Block.optionObey u b = true →
    place.Opens l → f.Steady u l (place.target l)
  | none, place, p, p', f, l, h, _, _ => by
    rw [blockOption] at h
    cases (pure_ok h).1
  | some b, place, p, p', f, l, h, hin, hl => by
    rw [blockOption] at h
    rw [Block.optionObey] at hin
    obtain ⟨g, p₁, hg, h⟩ := bind_ok h
    cases (pure_ok h).1
    exact steady_block b hg hin hl

theorem steady_branches {linker : Linker} : ∀ (bs : List Branch) {place : Place} {p p' : Progress}
    {arms : List (Fragment × Fragment)} {l : List (List Text)}, branches linker place bs p = .ok arms p' →
    Branch.allObey u bs = true → place.Opens l →
    ∀ arm ∈ arms, arm.1.Steady u l (place.target l) ∧ arm.2.Steady u l (place.target l)
  | [], place, p, p', arms, l, h, _, _ => by
    rw [branches] at h
    obtain ⟨rfl, -⟩ := pure_ok h
    intro arm harm
    exact absurd harm List.not_mem_nil
  | .mk cond body :: rest, place, p, p', arms, l, h, hin, hl => by
    rw [branches] at h
    simp only [Branch.allObey, Bool.and_eq_true] at hin
    obtain ⟨c, p₁, hc, h⟩ := bind_ok h
    obtain ⟨b, p₂, hb, h⟩ := bind_ok h
    obtain ⟨others, p₃, hothers, h⟩ := bind_ok h
    obtain ⟨rfl, -⟩ := pure_ok h
    intro arm harm
    rcases List.mem_cons.mp harm with rfl | harm
    · exact ⟨steady_expr cond hc hin.1.1, steady_block body hb hin.1.2 hl⟩
    · exact steady_branches rest hothers hin.2 hl arm harm

theorem steady_cases {linker : Linker} : ∀ (cs : List Case) {place : Place} {p p' : Progress}
    {arms : List (Fragment × Fragment)} {l : List (List Text)}, cases linker place cs p = .ok arms p' →
    Case.allObey u cs = true → place.Opens l →
    ∀ arm ∈ arms, arm.1.Steady u l (place.target l) ∧ arm.2.Steady u l (place.target l)
  | [], place, p, p', arms, l, h, _, _ => by
    rw [Compiler.cases] at h
    obtain ⟨rfl, -⟩ := pure_ok h
    intro arm harm
    exact absurd harm List.not_mem_nil
  | .mk values body :: rest, place, p, p', arms, l, h, hin, hl => by
    rw [Compiler.cases] at h
    simp only [Case.allObey, Bool.and_eq_true] at hin
    obtain ⟨test, p₁, htest, h⟩ := bind_ok h
    obtain ⟨b, p₂, hb, h⟩ := bind_ok h
    obtain ⟨others, p₃, hothers, h⟩ := bind_ok h
    obtain ⟨rfl, -⟩ := pure_ok h
    intro arm harm
    rcases List.mem_cons.mp harm with rfl | harm
    · refine ⟨?_, steady_block body hb hin.1.2 hl⟩
      cases test with
      | none => exact .boolean body.span false
      | some t =>
        exact steady_alternatives values htest hin.1.1 (fun _ ht => by cases ht) t rfl
    · exact steady_cases rest hothers hin.2 hl arm harm

theorem steady_alternatives {linker : Linker} : ∀ (values : List Expr) {before : Option Fragment}
    {p p' : Progress} {result : Option Fragment},
    alternatives linker before values p = .ok result p' → Expr.allObey u values = true →
    ∀ {l x}, (∀ t, before = some t → t.Steady u l x) → ∀ t, result = some t → t.Steady u l x
  | [], before, p, p', result, h, _, l, x, hbefore => by
    rw [alternatives] at h
    obtain ⟨rfl, -⟩ := pure_ok h
    exact hbefore
  | v :: rest, before, p, p', result, h, hin, l, x, hbefore => by
    rw [alternatives] at h
    rw [Expr.allObey, Bool.and_eq_true] at hin
    obtain ⟨f, p₁, hf, h⟩ := bind_ok h
    have htest : (caseTest v.span f).Steady u l x := .caseTest (steady_expr v hf hin.1) v.span
    refine steady_alternatives rest h hin.2 fun t ht => ?_
    cases before with
    | none =>
      cases ht
      exact htest
    | some b =>
      cases ht
      exact (hbefore b rfl).binary htest _ _

theorem steady_exprOption {linker : Linker} : ∀ (e : Option Expr) {p p' : Progress} {f : Fragment},
    exprOption linker e p = .ok (some f) p' → Expr.optionObey u e = true → ∀ {l x}, f.Steady u l x
  | none, p, p', f, h, _, _, _ => by
    rw [exprOption] at h
    cases (pure_ok h).1
  | some e, p, p', f, h, hin, l, x => by
    rw [exprOption] at h
    rw [Expr.optionObey] at hin
    obtain ⟨g, p₁, hg, h⟩ := bind_ok h
    cases (pure_ok h).1
    exact steady_expr e hg hin

theorem steady_stmtOption {linker : Linker} : ∀ (s : Option Stmt) {place : Place} {p p' : Progress}
    {f : Fragment} {l : List (List Text)}, stmtOption linker place s p = .ok f p' →
    Stmt.optionObey u s = true → place.Opens l → f.Steady u l (place.target l)
  | none, place, p, p', f, l, h, _, _ => by
    rw [stmtOption] at h
    obtain ⟨rfl, -⟩ := pure_ok h
    exact .empty
  | some s, place, p, p', f, l, h, hin, hl => by
    rw [stmtOption] at h
    rw [Stmt.optionObey] at hin
    obtain ⟨g, p₁, hg, h⟩ := bind_ok h
    obtain ⟨rfl, -⟩ := pure_ok h
    exact Fragment.Steady.discard (secures_stmt s hg hin hl l (Or.inl rfl))

/-- A statement that returns may lead anywhere, since control never gets behind it. -/
theorem secures_stmt {linker : Linker} : ∀ (s : Stmt) {place : Place} {p p' : Progress}
    {f : Fragment} {l : List (List Text)}, stmt linker place s p = .ok f p' → s.obeys u = true →
    place.Opens l → ∀ l', (l' = l ∨ s.isReturn = true) →
      f.Secures u (.still l) (.still l') (place.target l)
  | .ret s value, place, p, p', f, l, h, hin, hl, l', _ => by
    rw [stmt] at h
    rw [Stmt.obeys] at hin
    obtain ⟨v, p₁, hv, h⟩ := bind_ok h
    obtain ⟨rfl, -⟩ := pure_ok h
    have hvalue : (v.getD (Fragment.ofCode [.bare .pushNull])).Steady u l (place.target l) := by
      cases v with
      | none => exact .pushNull
      | some g => exact steady_exprOption value hv hin
    exact (hvalue.emit (.halt (Instruction.stands_bare rfl) (Or.inl rfl))).mark (by decide) _
  | .expr _ e, place, p, p', f, l, h, hin, hl, l', Or.inl hl' => by
    rw [stmt] at h
    rw [Stmt.obeys] at hin
    subst hl'
    exact steady_expr e h hin
  | .block body, place, p, p', f, l, h, hin, hl, l', Or.inl hl' => by
    rw [stmt] at h
    rw [Stmt.obeys] at hin
    obtain ⟨g, p₁, hg, h⟩ := bind_ok h
    obtain ⟨rfl, -⟩ := pure_ok h
    subst hl'
    exact ((steady_block body hg hin hl).emit Fragment.Steady.pushNull).mark (by decide) _
  | .cond s bs otherwise, place, p, p', f, l, h, hin, hl, l', Or.inl hl' => by
    rw [stmt] at h
    rw [Stmt.obeys, Bool.and_eq_true] at hin
    obtain ⟨arms, p₁, harms, h⟩ := bind_ok h
    obtain ⟨other, p₂, hother, h⟩ := bind_ok h
    obtain ⟨rfl, -⟩ := pure_ok h
    subst hl'
    refine Fragment.Secures.mark (Fragment.Steady.chain (steady_branches bs harms hin.1 hl) ?_) (by decide) _
    rintro g rfl
    exact steady_blockOption otherwise hother hin.2 hl
  | .whileLoop s cond body, place, p, p', f, l, h, hin, hl, l', Or.inl hl' => by
    rw [stmt] at h
    rw [Stmt.obeys, Bool.and_eq_true] at hin
    obtain ⟨c, p₁, hc, h⟩ := bind_ok h
    obtain ⟨b, p₂, hb, h⟩ := bind_ok h
    obtain ⟨rfl, -⟩ := pure_ok h
    subst hl'
    have hbody := steady_blockStmts body hb hin.2 (place.opens_inLoop [] ([] :: l'))
    rw [Place.target_inLoop] at hbody
    refine Fragment.Secures.mark (Fragment.Steady.loop .empty ?_ hbody.inScope .empty) (by decide) _
    intro c' hc'
    cases hc'
    exact steady_expr cond hc hin.1
  | .forLoop s init cond step body, place, p, p', f, l, h, hin, hl, l', Or.inl hl' => by
    rw [stmt] at h
    simp only [Stmt.obeys, Bool.and_eq_true] at hin
    obtain ⟨⟨⟨hinit, hcond⟩, hstep⟩, hblock⟩ := hin
    obtain ⟨i, p₁, hi, h⟩ := bind_ok h
    obtain ⟨c, p₂, hc, h⟩ := bind_ok h
    obtain ⟨b, p₃, hb, h⟩ := bind_ok h
    obtain ⟨n, p₄, hn, h⟩ := bind_ok h
    obtain ⟨rfl, -⟩ := pure_ok h
    subst hl'
    have hbody := steady_blockStmts body hb hblock (place.opens_inLoop [] ([] :: l'))
    have hinits := steady_stmtOption init hi hinit (hl.inScope [])
    have hsteps := steady_stmtOption step hn hstep (hl.inScope [])
    rw [Place.target_inLoop] at hbody
    rw [hl.target_inScope] at hinits hsteps
    refine Fragment.Secures.mark (Fragment.Steady.loop hinits ?_ hbody.inScope hsteps) (by decide) _
    rintro c' rfl
    exact steady_exprOption cond hc hcond
  | .loop s count body, place, p, p', f, l, h, hin, hl, l', Or.inl hl' => by
    rw [stmt] at h
    rw [Stmt.obeys, Bool.and_eq_true] at hin
    obtain ⟨c, p₁, hc, h⟩ := bind_ok h
    obtain ⟨b, p₂, hb, h⟩ := bind_ok h
    obtain ⟨rfl, -⟩ := pure_ok h
    subst hl'
    have hbody := steady_blockStmts body hb hin.2
      (place.opens_inLoop [] ([Compiler.hiddenIndex, Compiler.hiddenCount] :: l'))
    have hinner := steady_blockStmts body hb hin.2 (place.opens_inLoop [] [])
    rw [Place.target_inLoop] at hbody hinner
    exact Fragment.Steady.repeatLoop rfl (steady_expr count hc hin.1) hbody.inScope hinner.inScope ⟨b, rfl⟩ s
  | .each s name source body, place, p, p', f, l, h, hin, hl, l', Or.inl hl' => by
    rw [stmt] at h
    simp only [Stmt.obeys, Bool.and_eq_true] at hin
    obtain ⟨⟨hname, hsource⟩, hblock⟩ := hin
    obtain ⟨c, p₁, hc, h⟩ := bind_ok h
    obtain ⟨b, p₂, hb, h⟩ := bind_ok h
    obtain ⟨rfl, -⟩ := pure_ok h
    subst hl'
    have hbody := steady_blockStmts body hb hblock
      (place.opens_inLoop [] ([Compiler.hiddenStep, Compiler.hiddenIter] :: l'))
    have hinner := steady_blockStmts body hb hblock (place.opens_inLoop [] [])
    rw [Place.target_inLoop] at hbody hinner
    refine Fragment.Steady.eachLoop rfl hname (steady_expr source hc hsource) (records_expr hc) hbody hinner
      (fun hlength => ⟨⟨[], place.depth, false, true⟩, ?_⟩) s
    have htakes := takes_blockStmts body hb hlength hl.admits.inLoop
    rw [hl.admits.around_inLoop] at htakes
    exact htakes
  | .select s subject cs otherwise, place, p, p', f, l, h, hin, hl, l', Or.inl hl' => by
    rw [stmt] at h
    simp only [Stmt.obeys, Bool.and_eq_true] at hin
    obtain ⟨⟨hsubject, hcases⟩, hotherwise⟩ := hin
    obtain ⟨c, p₁, hc, h⟩ := bind_ok h
    split at h
    · obtain ⟨_, p₂, habsurd, h⟩ := bind_ok h
      cases habsurd
    · obtain ⟨tests, p₂, htests, h⟩ := bind_ok h
      obtain ⟨other, p₃, hother, h⟩ := bind_ok h
      obtain ⟨rfl, -⟩ := pure_ok h
      subst hl'
      have hall := steady_cases cs htests hcases (hl.inScope [])
      rw [hl.target_inScope] at hall
      refine Fragment.Steady.selectChain (steady_expr subject hc hsubject) hall ?_ s
      rintro g rfl
      have hg := steady_blockOption otherwise hother hotherwise (hl.inScope [])
      rw [hl.target_inScope] at hg
      exact hg
  | .impl s method type params body, place, p, p', f, l, h, hin, hl, l', Or.inl hl' => by
    rw [stmt] at h
    simp only [Stmt.obeys, Bool.and_eq_true] at hin
    obtain ⟨⟨hname, hparams⟩, hbody⟩ := hin
    subst hl'
    split at h
    · obtain ⟨_, p₁, -, h⟩ := bind_ok h
      obtain ⟨rfl, -⟩ := pure_ok h
      exact Fragment.Steady.pushNull
    · obtain ⟨_, p₁, -, h⟩ := bind_ok h
      obtain ⟨ps, p₂, hps, h⟩ := bind_ok h
      obtain ⟨b, p₃, hb, h⟩ := bind_ok h
      obtain ⟨rfl, -⟩ := pure_ok h
      have hfunction : (Fragment.function ps params.length type b).Steady u l' (place.target l') :=
        (steady_paramsBackward params hps hparams).function (secures_functionBody body hb hbody l')
      have hbind : u.Binds .inner (Key.join method type) l' := .of_name u.inner hname l'
      exact (hfunction.emit (Fragment.Steady.bindTop hbind)).mark (by decide) _
  | .typeDef s name fields, place, p, p', f, l, h, hin, hl, l', Or.inl hl' => by
    rw [stmt] at h
    rw [Stmt.obeys, Bool.and_eq_true] at hin
    obtain ⟨_, p₁, -, h⟩ := bind_ok h
    obtain ⟨rfl, -⟩ := pure_ok h
    subst hl'
    exact Fragment.Steady.typeDef hin.1 (.of_titled hin.2) s fields
  | .leave s, place, p, p', f, l, h, _, hl, l', Or.inl _ => by
    rw [stmt] at h
    obtain ⟨rfl, -⟩ := pure_ok h
    exact (hl.exit false).mark (by decide) _
  | .again s, place, p, p', f, l, h, _, hl, l', Or.inl _ => by
    rw [stmt] at h
    obtain ⟨rfl, -⟩ := pure_ok h
    exact (hl.exit true).mark (by decide) _
  | .imports s path names, place, p, p', f, l, h, hin, hl, l', Or.inl hl' => by
    rw [stmt] at h
    rw [Stmt.obeys] at hin
    subst hl'
    exact steady_importStmt h hin
  | .exports s names, place, p, p', f, l, h, hin, hl, l', Or.inl hl' => by
    rw [stmt] at h
    rw [Stmt.obeys] at hin
    subst hl'
    exact steady_exportStmt h hin
  | .missing, place, p, p', f, l, h, _, _, _, _ => by
    rw [stmt] at h
    cases h

end

end
end Compiler
end ScriptEngine
