import ScriptEngine.Proofs.Compiler.Fragment
import ScriptEngine.Proofs.Plans.Plan

/-!
# Plans and fragments

Every layout function of the compiler builds what the plan of the same construct says: it puts
fragments together from the inside, where a plan is written out from the outside.
-/

namespace ScriptEngine

/-- The operation leads to another place or leaves a loop. -/
@[simp] def Operation.placed : Operation → Bool
  | .buildFunc | .jump | .jumpIfFalsePeek | .jumpIfTruePeek | .jumpIfFalse | .leave | .again => true
  | _ => false

/-- What the instruction should be depends on where it stands. -/
def Instruction.placed (i : Instruction) : Bool :=
  i.op.operation?.any Operation.placed

namespace Instruction

@[simp] theorem placed_bare (op : Operation) : (bare op).placed = op.placed := by
  cases op <;> rfl

@[simp] theorem placed_withText (op : Operation) (t : Text) : (withText op t).placed = op.placed :=
  placed_bare op

@[simp] theorem placed_number (x : Float) : (number x).placed = false :=
  placed_withText _ _

@[simp] theorem placed_count (n : Nat) : (count n).placed = false :=
  placed_withText _ _

@[simp] theorem placed_string (s : Text) : (string s).placed = false :=
  placed_withText _ _

end Instruction

namespace Plan

/-- The fragment of a plan, where `scopes` are open in the loop around it. -/
def build (scopes : Option Nat) : Plan → Fragment
  | ins code => Fragment.ofCode code
  | seq a b => a.build scopes ++ b.build scopes
  | node kind span a => (a.build scopes).mark kind span
  | skip op a =>
    Fragment.ofCode [.withDistance op (a.build scopes).length] ++ a.build scopes
  | choose yes no =>
    Fragment.ofCode [.withDistance .jumpIfFalse ((yes.build scopes).length + 1)] ++
      yes.build scopes ++ Fragment.ofCode [.withDistance .jump (no.build scopes).length] ++
        no.build scopes
  | scope a => Fragment.inScope (a.build (scopes.map (· + 1)))
  | loop init tested cond body step =>
    let inside := scopes.map (· + 1)
    Fragment.loop (init.build inside) (if tested then some (cond.build inside) else none)
      (body.build (some 0)) (step.build inside)
  | func a => Fragment.ofCode [.withDistance .buildFunc (a.build none).length] ++ a.build none
  | exit again => Fragment.exit again scopes

/-- No jump of the plan leads to the place behind it. -/
def ended : Plan → Bool
  | ins _ | scope _ | loop .. | exit _ => true
  | seq a b => b.ended && (0 < b.width none || a.ended)
  | node _ _ a => a.ended
  | skip .. | choose .. | func _ => false

/-- Distances and exits stand only where the plan puts them, and no jump in a function leads behind it. -/
def sound : Plan → Bool
  | ins code => code.all fun i => !i.placed
  | seq a b | choose a b => a.sound && b.sound
  | node _ _ a | scope a => a.sound
  | skip op a => op != .buildFunc && a.sound
  | loop init _ cond body step => init.sound && (cond.sound && (body.sound && step.sound))
  | func a => a.sound && a.ended
  | exit _ => true

/-- An instruction of the plan belongs to the node around it. -/
def owns : Plan → Bool
  | ins code => !code.isEmpty
  | seq a b => a.owns || b.owns
  | node .. => false
  | skip .. | choose .. | scope _ | loop .. | func _ | exit _ => true

/-- Every node has an instruction of its own. -/
def proper : Plan → Bool
  | ins _ | exit _ => true
  | seq a b | choose a b => a.proper && b.proper
  | node _ _ a => a.owns && a.proper
  | skip _ a | scope a | func a => a.proper
  | loop init _ cond body step => init.proper && (cond.proper && (body.proper && step.proper))

variable {a b c : Plan} {code : List Instruction}

@[simp] theorem build_append (scopes : Option Nat) (a b : Plan) :
    (a ++ b).build scopes = a.build scopes ++ b.build scopes := rfl

@[simp] theorem build_emit (scopes : Option Nat) (a : Plan) (code : List Instruction) :
    (a.emit code).build scopes = (a.build scopes).emit code :=
  (Fragment.emit_eq _ _).symm

@[simp] theorem build_empty (scopes : Option Nat) : empty.build scopes = Fragment.empty := rfl

@[simp] theorem build_node (scopes : Option Nat) (kind : String) (span : Span) (a : Plan) :
    (node kind span a).build scopes = (a.build scopes).mark kind span := rfl

theorem build_ins (scopes : Option Nat) (code : List Instruction) :
    (ins code).build scopes = Fragment.ofCode code := rfl

theorem build_skip (scopes : Option Nat) (op : Operation) (a : Plan) :
    (skip op a).build scopes =
      Fragment.ofCode [.withDistance op (a.build scopes).length] ++ a.build scopes := rfl

theorem build_choose (scopes : Option Nat) (yes no : Plan) :
    (choose yes no).build scopes =
      Fragment.ofCode [.withDistance .jumpIfFalse ((yes.build scopes).length + 1)] ++
        yes.build scopes ++ Fragment.ofCode [.withDistance .jump (no.build scopes).length] ++
          no.build scopes := rfl

theorem build_loop (scopes : Option Nat) (init : Plan) (tested : Bool) (cond body step : Plan) :
    (loop init tested cond body step).build scopes =
      Fragment.loop (init.build (scopes.map (· + 1)))
        (if tested then some (cond.build (scopes.map (· + 1))) else none)
        (body.build (some 0)) (step.build (scopes.map (· + 1))) := rfl

theorem build_func (scopes : Option Nat) (a : Plan) :
    (func a).build scopes =
      Fragment.ofCode [.withDistance .buildFunc (a.build none).length] ++ a.build none := rfl

@[simp] theorem sound_append (a b : Plan) : (a ++ b).sound = (a.sound && b.sound) := rfl

@[simp] theorem sound_emit (a : Plan) (code : List Instruction) :
    (a.emit code).sound = (a.sound && code.all fun i => !i.placed) := rfl

@[simp] theorem proper_append (a b : Plan) : (a ++ b).proper = (a.proper && b.proper) := rfl

@[simp] theorem proper_emit (a : Plan) (code : List Instruction) :
    (a.emit code).proper = (a.proper && true) := rfl

@[simp] theorem owns_append (a b : Plan) : (a ++ b).owns = (a.owns || b.owns) := rfl

@[simp] theorem owns_emit (a : Plan) (code : List Instruction) :
    (a.emit code).owns = (a.owns || !code.isEmpty) := rfl

attribute [simp] sound proper owns

/-!
# Constructs
-/

/-- The plan is built to the fragment and is sound, and proper if the tree is `clean`. -/
structure Makes (clean : Prop) (scopes : Option Nat) (a : Plan) (f : Fragment) : Prop where
  build : a.build scopes = f
  sound : a.sound = true
  proper : clean → a.proper = true

namespace Makes

variable {clean : Prop} {scopes : Option Nat} {f g h : Fragment}

theorem empty : Plan.empty.Makes clean scopes Fragment.empty :=
  ⟨rfl, rfl, fun _ => rfl⟩

theorem number (span : Span) (x : Float) :
    (Plan.number span x).Makes clean scopes (Fragment.number span x) :=
  ⟨rfl, by simp [Plan.number], fun _ => by simp [Plan.number]⟩

theorem text (span : Span) (s : Text) : (Plan.text span s).Makes clean scopes (Fragment.text span s) :=
  ⟨rfl, by simp [Plan.text], fun _ => by simp [Plan.text]⟩

theorem boolean (span : Span) (x : Bool) :
    (Plan.boolean span x).Makes clean scopes (Fragment.boolean span x) :=
  ⟨rfl, by simp [Plan.boolean], fun _ => by simp [Plan.boolean]⟩

theorem pushNull : (ins [.bare .pushNull]).Makes clean scopes (Fragment.ofCode [.bare .pushNull]) :=
  ⟨rfl, by simp, fun _ => by simp⟩

theorem null (span : Span) : (Plan.null span).Makes clean scopes (Fragment.null span) :=
  ⟨rfl, by simp [Plan.null], fun _ => by simp [Plan.null]⟩

theorem var (span : Span) (name : Text) : (Plan.var span name).Makes clean scopes (Fragment.var span name) :=
  ⟨rfl, by simp [Plan.var], fun _ => by simp [Plan.var]⟩

/-- The right operand of `and` and `or`. -/
theorem shortCircuit (ha : a.Makes clean scopes f) (hb : b.Makes clean scopes g) {skip : Operation}
    (hskip : skip ≠ .buildFunc) :
    (a ++ Plan.skip skip (ins [.bare .pop] ++ b)).Makes clean scopes
      (f.emit [.withDistance skip (1 + g.length), .bare .pop] ++ g) := by
  constructor
  · have hlen : ((Fragment.ofCode [.bare .pop] ++ g).length : Int) = 1 + g.length := by
      rw [Fragment.length_append, Int.natCast_add]
      rfl
    rw [build_append, build_skip, build_append, ha.build, hb.build, Fragment.emit_eq,
      Fragment.ofCode_cons _ [Instruction.bare .pop], Fragment.append_assoc, Fragment.append_assoc,
      build_ins, hlen]
  · simp [ha.sound, hb.sound, hskip]
  · intro h
    simp [ha.proper h, hb.proper h]

theorem node (ha : a.Makes clean scopes f) (howns : a.owns = true) (kind : String) (span : Span) :
    (node kind span a).Makes clean scopes (f.mark kind span) :=
  ⟨by rw [build_node, ha.build], ha.sound, fun h => by simp [howns, ha.proper h]⟩

theorem append (ha : a.Makes clean scopes f) (hb : b.Makes clean scopes g) : (a ++ b).Makes clean scopes (f ++ g) :=
  ⟨by rw [build_append, ha.build, hb.build], by simp [ha.sound, hb.sound],
    fun h => by simp [ha.proper h, hb.proper h]⟩

theorem emit (ha : a.Makes clean scopes f) (hcode : (ins code).sound = true) :
    (a.emit code).Makes clean scopes (f.emit code) :=
  ⟨by rw [build_emit, ha.build], by rw [Plan.emit, sound_append, ha.sound, hcode, Bool.and_self],
    fun h => by simp [ha.proper h]⟩

theorem binary (ha : a.Makes clean scopes f) (hb : b.Makes clean scopes g) (span : Span) (op : Text) :
    (Plan.binary span op a b).Makes clean scopes (Fragment.binary span op f g) := by
  refine node ?_ (by split <;> simp [apply_ite Plan.owns]) _ _
  split
  · exact shortCircuit ha hb (by decide)
  · split
    · exact shortCircuit ha hb (by decide)
    · exact (ha.append hb).emit (by simp)

theorem unary (ha : a.Makes clean scopes f) (span : Span) (op : Text) :
    (Plan.unary span op a).Makes clean scopes (Fragment.unary span op f) := by
  refine node (ha.emit ?_) (by split <;> simp [apply_ite List.isEmpty]) _ _
  split
  · simp
  · split <;> simp

theorem list (ha : a.Makes clean scopes f) (span : Span) (n : Nat) :
    (Plan.list span n a).Makes clean scopes (Fragment.list span n f) :=
  (ha.emit (by simp)).node (by simp) _ _

theorem dict (ha : a.Makes clean scopes f) (span : Span) (n : Nat) :
    (Plan.dict span n a).Makes clean scopes (Fragment.dict span n f) :=
  (ha.emit (by simp)).node (by simp) _ _

theorem call (ha : a.Makes clean scopes f) (hb : b.Makes clean scopes g) (span : Span) (n : Nat) :
    (Plan.call span n a b).Makes clean scopes (Fragment.call span n f g) :=
  (((ha.emit (by simp)).append hb).emit (by simp)).node (by simp) _ _

theorem member (ha : a.Makes clean scopes f) (span : Span) (name : Text) :
    (Plan.member span a name).Makes clean scopes (Fragment.member span f name) :=
  (ha.emit (by simp)).node (by simp) _ _

theorem index (ha : a.Makes clean scopes f) (hb : b.Makes clean scopes g) (span : Span) :
    (Plan.index span a b).Makes clean scopes (Fragment.index span f g) :=
  ((ha.append hb).emit (by simp)).node (by simp) _ _

theorem varTarget (name : Text) : (Plan.varTarget name).Makes clean scopes (Fragment.varTarget name) :=
  ⟨rfl, by simp [Plan.varTarget], fun _ => by simp [Plan.varTarget]⟩

theorem assign (ha : a.Makes clean scopes f) (hb : b.Makes clean scopes g) (span : Span) (scope : Scope) :
    (Plan.assign span a (some b) scope).Makes clean scopes (Fragment.assign span f (some g) scope) :=
  ((ha.append hb).emit (by cases scope <;> rfl)).node (by simp) _ _

/-- Without a target the value stands alone, which happens only where a problem is reported. -/
theorem assignNothing (ha : a.Makes clean scopes f) (hdirty : ¬ clean) (span : Span) (scope : Scope) :
    (Plan.assign span a none scope).Makes clean scopes (Fragment.assign span f none scope) :=
  ⟨congrArg (fun f => f.mark "Assign" span) ha.build, ha.sound, fun h => absurd h hdirty⟩

theorem sound_bindTop (name : Text) (scope : Scope) :
    (ins (Fragment.bindTop name scope)).sound = true := by
  cases scope <;> rfl

theorem bindTop (ha : a.Makes clean scopes f) (name : Text) (scope : Scope) :
    (a.emit (Fragment.bindTop name scope)).Makes clean scopes (f.emit (Fragment.bindTop name scope)) :=
  ha.emit (sound_bindTop name scope)

theorem function (ha : a.Makes clean scopes f) (hb : b.Makes clean none g) (hended : b.ended = true) (n : Nat)
    (selfType : Text) :
    (Plan.function a n selfType b).Makes clean scopes (Fragment.function f n selfType g) := by
  have hbody : (Plan.func b).Makes clean scopes
      (Fragment.ofCode [.withDistance .buildFunc g.length] ++ g) :=
    ⟨by rw [build_func, hb.build], by rw [Plan.sound, hb.sound, hended, Bool.and_self], hb.proper⟩
  unfold Plan.function Fragment.function
  dsimp only
  rw [Fragment.emit_eq _ [Instruction.withDistance .buildFunc g.length], Fragment.append_assoc]
  split
  · exact (ha.emit (by simp)).append hbody
  · exact (ha.emit (by simp)).append hbody

theorem discard (ha : a.Makes clean scopes f) : a.discard.Makes clean scopes f.discard :=
  ha.emit (by simp)

theorem inScope (ha : a.Makes clean (scopes.map (· + 1)) f) : (scope a).Makes clean scopes (Fragment.inScope f) :=
  ⟨congrArg Fragment.inScope ha.build, ha.sound, ha.proper⟩

/-- Two alternatives. -/
theorem choose (ha : a.Makes clean scopes f) (hb : b.Makes clean scopes g) (hc : c.Makes clean scopes h) :
    (a ++ Plan.choose b c).Makes clean scopes
      ((f.emit [.withDistance .jumpIfFalse (g.length + 1)] ++ g).emit
        [.withDistance .jump h.length] ++ h) := by
  constructor
  · rw [build_append, build_choose, ha.build, hb.build, hc.build, Fragment.emit_eq, Fragment.emit_eq]
    simp only [Fragment.append_assoc]
  · simp [ha.sound, hb.sound, hc.sound]
  · intro h
    simp [ha.proper h, hb.proper h, hc.proper h]

/-- Conditions with their bodies, one by one. -/
inductive Arms (clean : Prop) (scopes : Option Nat) : List (Plan × Plan) → List (Fragment × Fragment) → Prop
  | nil : Arms clean scopes [] []
  | cons {as : List (Plan × Plan)} {fs : List (Fragment × Fragment)} {a b : Plan} {f g : Fragment}
      (ha : a.Makes clean scopes f) (hb : b.Makes clean scopes g) (h : Arms clean scopes as fs) :
      Arms clean scopes ((a, b) :: as) ((f, g) :: fs)

/-- Code that may be absent. -/
inductive Optional (clean : Prop) (scopes : Option Nat) : Option Plan → Option Fragment → Prop
  | none : Optional clean scopes none none
  | some {a : Plan} {f : Fragment} (h : a.Makes clean scopes f) : Optional clean scopes (some a) (some f)

theorem arms {as : List (Plan × Plan)} {fs : List (Fragment × Fragment)} {other : Option Plan}
    {other' : Option Fragment} (has : Arms clean scopes as fs) (hother : Optional clean scopes other other') :
    (Plan.arms as other).Makes clean scopes (Fragment.arms fs other') := by
  induction has with
  | nil =>
    cases hother with
    | none => exact empty
    | some h => exact h
  | @cons as fs a b f g ha hb hrest ih =>
    have hchoose := ha.choose hb ih
    cases hrest with
    | nil =>
      cases hother with
      | none =>
        constructor
        · show a.build scopes ++ (_ ++ b.build scopes) = f.emit _ ++ g
          rw [ha.build, hb.build, Fragment.emit_eq, Fragment.append_assoc]
        · simp [Plan.arms, ha.sound, hb.sound]
        · intro h
          simp [Plan.arms, ha.proper h, hb.proper h]
      | some h => exact hchoose
    | cons => exact hchoose

theorem chain {as : List (Plan × Plan)} {fs : List (Fragment × Fragment)} {other : Option Plan}
    {other' : Option Fragment} (has : Arms clean scopes as fs) (hother : Optional clean scopes other other') :
    (Plan.chain as other).Makes clean scopes (Fragment.chain fs other') :=
  (arms has hother).emit (by simp)

theorem assignStmt (ha : a.Makes clean scopes f) (span : Span) (name : Text) (scope : Scope) :
    (Plan.assignStmt span name a scope).Makes clean scopes (Compiler.assignStmt span name f scope) :=
  (ha.assign (varTarget name) span scope).discard

theorem nextStep (span : Span) (scope : Scope) :
    (Plan.nextStep span scope).Makes clean scopes (Compiler.nextStep span scope) :=
  (call empty ((var span _).member span "next") span 0).assignStmt span _ scope

theorem stepPart (span : Span) (n : Nat) :
    (Plan.stepPart span n).Makes clean scopes (Compiler.stepPart span n) :=
  (var span _).index (number span _) span

/-- A loop whose rounds are tested. -/
theorem loop (ha : a.Makes clean (scopes.map (· + 1)) f) (hb : b.Makes clean (scopes.map (· + 1)) g)
    (hc : c.Makes clean (some 0) h) {d : Plan} {i : Fragment} (hd : d.Makes clean (scopes.map (· + 1)) i) :
    (Plan.loop a true b c d).Makes clean scopes (Fragment.loop f (some g) h i) :=
  ⟨by rw [build_loop, if_pos rfl, ha.build, hb.build, hc.build, hd.build],
    by simp [ha.sound, hb.sound, hc.sound, hd.sound],
    fun h => by simp [ha.proper h, hb.proper h, hc.proper h, hd.proper h]⟩

/-- A loop that only an exit ends. -/
theorem endless (ha : a.Makes clean (scopes.map (· + 1)) f) (hc : c.Makes clean (some 0) h) {d : Plan}
    {i : Fragment} (hd : d.Makes clean (scopes.map (· + 1)) i) :
    (Plan.loop a false Plan.empty c d).Makes clean scopes (Fragment.loop f none h i) :=
  ⟨by rw [build_loop, if_neg (by decide), ha.build, hc.build, hd.build],
    by simp [Plan.empty, ha.sound, hc.sound, hd.sound],
    fun h => by simp [Plan.empty, ha.proper h, hc.proper h, hd.proper h]⟩

theorem eachLoop (ha : a.Makes clean (scopes.map (· + 1)) f) (hb : b.Makes clean (some 1) g) (span : Span)
    (name : Text) :
    (Plan.eachLoop span name a b).Makes clean scopes (Compiler.eachLoop span name f g) := by
  refine node ?_ rfl _ _
  apply loop
  · exact ((call empty (ha.member span "iter") span 0).assignStmt span _ .inner).append (nextStep _ _)
  · exact stepPart span 2
  · exact inScope (((stepPart span 1).assignStmt span name .inner).append hb)
  · exact nextStep span .nearest

theorem repeatLoop (ha : a.Makes clean (scopes.map (· + 1)) f) (hb : b.Makes clean (some 0) g) (span : Span) :
    (Plan.repeatLoop span a b).Makes clean scopes (Compiler.repeatLoop span f g) := by
  refine node ?_ rfl _ _
  apply loop
  · exact ha.emit rfl
  · exact ⟨rfl, rfl, fun _ => rfl⟩
  · exact hb
  · exact ⟨rfl, rfl, fun _ => rfl⟩

theorem selectChain {as : List (Plan × Plan)} {fs : List (Fragment × Fragment)} {other : Option Plan}
    {other' : Option Fragment} (ha : a.Makes clean (scopes.map (· + 1)) f)
    (has : Arms clean (scopes.map (· + 1)) as fs) (hother : Optional clean (scopes.map (· + 1)) other other')
    (span : Span) :
    (Plan.selectChain span a as other).Makes clean scopes (Compiler.selectChain span f fs other') := by
  have hchoice : (if as.isEmpty then other.getD Plan.empty else (Plan.chain as other).discard).Makes clean
      (scopes.map (· + 1))
      (if fs.isEmpty then other'.getD Fragment.empty else (Fragment.chain fs other').discard) := by
    cases has with
    | nil =>
      cases hother with
      | none => exact empty
      | some h => exact h
    | cons ha hb hrest => exact (chain (.cons ha hb hrest) hother).discard
  have hclose : ∀ f : Fragment, f.emit [.bare .scopeExit, .bare .pushNull] =
      (f.emit [.bare .scopeExit]).emit [.bare .pushNull] := by
    intro f
    simp [Fragment.emit]
  refine node ?_ rfl _ _
  rw [hclose, Fragment.append_assoc]
  exact (inScope ((ha.emit rfl).append hchoice)).emit (by simp)

theorem caseTest (ha : a.Makes clean scopes f) (span : Span) :
    (Plan.caseTest span a).Makes clean scopes (Compiler.caseTest span f) :=
  (var span _).binary ha span "=="

theorem typeDef (span : Span) (name : Text) (fields : List Text) :
    (Plan.typeDef span name fields).Makes clean scopes (Compiler.typeDefCode span name fields) := by
  have hbind := sound_bindTop name .inner
  refine node ?_ (by simp [Fragment.bindTop]) _ _
  exact ⟨rfl, by simpa [List.all_append] using hbind, fun _ => rfl⟩

/-- Statements for the names of a list, behind some code. -/
theorem foldNames {plan : Text → Plan} {stmt : Text → Fragment}
    (h : ∀ name, (plan name).Makes clean scopes (stmt name)) (names : List Text) (ha : a.Makes clean scopes f) :
    (names.foldl (fun acc name => acc ++ plan name) a).Makes clean scopes
      (names.foldl (fun acc name => acc ++ stmt name) f) := by
  induction names generalizing a f with
  | nil => exact ha
  | cons name rest ih => exact ih (ha.append (h name))

theorem importCode (span : Span) (path : Text) (names : List Text) :
    (Plan.importCode span path names).Makes clean scopes (Compiler.importCode span path names) := by
  unfold Plan.importCode Compiler.importCode
  dsimp only
  split
  · exact (var span _).assignStmt span _ .inner
  · exact foldNames (fun name => ((var span _).member span name).assignStmt span name .inner) names empty

theorem exportCode (span : Span) (first : Bool) (names : List Text) :
    (Plan.exportCode span first names).Makes clean scopes (Compiler.exportCode span first names) := by
  have hstore : ∀ name, (Plan.assign span (Plan.var span name)
      (some ((Plan.var span Key.exports).emit [.string name])) .nearest).discard.Makes clean scopes
      (Fragment.assign span (Fragment.var span name)
        (some ((Fragment.var span Key.exports).emit [.string name])) .nearest).discard := by
    intro name
    exact ((var span name).assign ((var span _).emit (by simp)) span .nearest).discard
  apply foldNames hstore names
  split
  · exact (dict empty span 0).assignStmt span _ .inner
  · exact empty

theorem linked (ha : a.Makes clean scopes f) (span : Span) (kind : String) :
    (Plan.linked span kind a).Makes clean scopes (Compiler.linked span kind f) :=
  (ha.emit (by simp)).node (by simp) _ _

theorem exit (again : Bool) : (Plan.exit again).Makes clean scopes (Fragment.exit again scopes) :=
  ⟨rfl, rfl, fun _ => rfl⟩

end Makes

end Plan
end ScriptEngine
