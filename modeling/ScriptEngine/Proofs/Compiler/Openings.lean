import ScriptEngine.Proofs.Compiler.Heights

/-!
# Where exports are opened

The walk of the compiler depends on what was compiled before in one way only: the first export opens
the hidden dict if none did so before. So a tree is walked alike whether exports are open or not, and
if it has an export, the code differs by the statement that opens them.
-/

namespace ScriptEngine

namespace Fragment

/-- The first fragment is longer by the statement that opens the exports. -/
def Exceeds (f g : Fragment) : Prop :=
  f.length = g.length + 6

/-- The same of fragments that may be absent. -/
inductive OptionExceeds : Option Fragment → Option Fragment → Prop
  | some {f g : Fragment} (h : f.Exceeds g) : OptionExceeds (some f) (some g)

/-- Of two lists of arms, one fragment of the first exceeds its counterpart and all others are the
same. -/
inductive ArmsExceed : List (Fragment × Fragment) → List (Fragment × Fragment) → Prop
  | cond {c c' b : Fragment} {rest : List (Fragment × Fragment)} (h : c.Exceeds c') :
    ArmsExceed ((c, b) :: rest) ((c', b) :: rest)
  | body {c b b' : Fragment} {rest : List (Fragment × Fragment)} (h : b.Exceeds b') :
    ArmsExceed ((c, b) :: rest) ((c, b') :: rest)
  | later {arm : Fragment × Fragment} {rest rest' : List (Fragment × Fragment)}
    (h : ArmsExceed rest rest') : ArmsExceed (arm :: rest) (arm :: rest')

namespace Exceeds

variable {f f' g g' : Fragment}

theorem mark (h : f.Exceeds f') (kind : String) (span : Span) :
    (f.mark kind span).Exceeds (f'.mark kind span) := by
  unfold Exceeds at h ⊢
  rw [length_mark, length_mark, h]

theorem emit (h : f.Exceeds f') {code code' : List Instruction} (hcode : code.length = code'.length) :
    (f.emit code).Exceeds (f'.emit code') := by
  unfold Exceeds at h ⊢
  rw [length_emit, length_emit, hcode, h]
  omega

theorem append_left (h : f.Exceeds f') (g : Fragment) : (f ++ g).Exceeds (f' ++ g) := by
  unfold Exceeds at h ⊢
  rw [length_append, length_append, h]
  omega

theorem append_right (f : Fragment) (h : g.Exceeds g') : (f ++ g).Exceeds (f ++ g') := by
  unfold Exceeds at h ⊢
  rw [length_append, length_append, h]
  omega

theorem discard (h : f.Exceeds f') : f.discard.Exceeds f'.discard :=
  h.emit rfl

theorem inScope (h : f.Exceeds f') : (inScope f).Exceeds (inScope f') :=
  (append_right _ h).emit rfl

/-!
# Layouts of expressions
-/

theorem list (h : f.Exceeds f') (span : Span) (n : Nat) : (list span n f).Exceeds (list span n f') :=
  (h.emit rfl).mark _ _

theorem dict (h : f.Exceeds f') (span : Span) (n : Nat) : (dict span n f).Exceeds (dict span n f') :=
  (h.emit rfl).mark _ _

theorem binary_left (h : f.Exceeds f') (span : Span) (op : Text) (g : Fragment) :
    (binary span op f g).Exceeds (binary span op f' g) := by
  refine mark ?_ _ _
  split
  · exact (h.emit rfl).append_left g
  split
  · exact (h.emit rfl).append_left g
  · exact (h.append_left g).emit rfl

theorem binary_right (span : Span) (op : Text) (f : Fragment) (h : g.Exceeds g') :
    (binary span op f g).Exceeds (binary span op f g') := by
  have hskip : ∀ skip : Operation,
      (f.emit [.withDistance skip (1 + g.length), .bare .pop] ++ g).Exceeds
        (f.emit [.withDistance skip (1 + g'.length), .bare .pop] ++ g') := by
    intro skip
    unfold Exceeds at h ⊢
    simp only [length_append, length_emit, List.length_cons, List.length_nil]
    omega
  refine mark ?_ _ _
  split
  · exact hskip _
  split
  · exact hskip _
  · exact (append_right f h).emit rfl

theorem unary (h : f.Exceeds f') (span : Span) (op : Text) :
    (unary span op f).Exceeds (unary span op f') :=
  (h.emit rfl).mark _ _

theorem call_args (h : f.Exceeds f') (span : Span) (n : Nat) (callee : Fragment) :
    (call span n f callee).Exceeds (call span n f' callee) :=
  (((h.emit rfl).append_left callee).emit rfl).mark _ _

theorem call_callee (span : Span) (n : Nat) (args : Fragment) (h : g.Exceeds g') :
    (call span n args g).Exceeds (call span n args g') :=
  ((append_right _ h).emit rfl).mark _ _

theorem member (h : f.Exceeds f') (span : Span) (name : Text) :
    (member span f name).Exceeds (member span f' name) :=
  (h.emit rfl).mark _ _

theorem index_object (h : f.Exceeds f') (span : Span) (key : Fragment) :
    (index span f key).Exceeds (index span f' key) :=
  ((h.append_left key).emit rfl).mark _ _

theorem index_key (span : Span) (object : Fragment) (h : g.Exceeds g') :
    (index span object g).Exceeds (index span object g') :=
  ((append_right object h).emit rfl).mark _ _

theorem assign_value (h : f.Exceeds f') (span : Span) (target : Option Fragment) (scope : Scope) :
    (assign span f target scope).Exceeds (assign span f' target scope) := by
  cases target with
  | none => exact h.mark _ _
  | some t => exact ((h.append_left t).emit rfl).mark _ _

theorem assign_target (span : Span) (value : Fragment) {t t' : Option Fragment}
    (h : OptionExceeds t t') (scope : Scope) :
    (assign span value t scope).Exceeds (assign span value t' scope) := by
  cases h with
  | some h => exact ((append_right value h).emit rfl).mark _ _

theorem function_params (h : f.Exceeds f') (n : Nat) (selfType : Text) (body : Fragment) :
    (function f n selfType body).Exceeds (function f' n selfType body) := by
  unfold function
  dsimp only
  split
  · exact ((h.emit rfl).emit rfl).append_left body
  · exact ((h.emit rfl).emit rfl).append_left body

theorem function_body (f : Fragment) (n : Nat) (selfType : Text) (h : g.Exceeds g') :
    (function f n selfType g).Exceeds (function f n selfType g') := by
  unfold Exceeds function at *
  simp only [length_append, length_emit, List.length_singleton]
  omega

/-!
# Layouts of statements
-/

theorem arms_branches {branches branches' : List (Fragment × Fragment)}
    (h : ArmsExceed branches branches') (other : Option Fragment) :
    (arms branches other).Exceeds (arms branches' other) := by
  induction h with
  | @cond c c' b rest h =>
    unfold Exceeds at h ⊢
    cases rest <;> cases other <;>
      simp only [arms, length_append, length_emit, List.length_singleton] <;> omega
  | @body c b b' rest h =>
    unfold Exceeds at h ⊢
    cases rest <;> cases other <;>
      simp only [arms, length_append, length_emit, List.length_singleton] <;> omega
  | @later arm rest rest' h ih =>
    obtain ⟨c, b⟩ := arm
    unfold Exceeds at ih ⊢
    cases h <;>
      simp only [arms, length_append, length_emit, List.length_singleton] at ih ⊢ <;> omega

theorem arms_other (branches : List (Fragment × Fragment)) {other other' : Option Fragment}
    (h : OptionExceeds other other') : (arms branches other).Exceeds (arms branches other') := by
  cases h with
  | some h =>
    induction branches with
    | nil => exact h
    | cons arm rest ih =>
      obtain ⟨c, b⟩ := arm
      unfold Exceeds at ih ⊢
      simp only [arms, length_append, length_emit, List.length_singleton]
      omega

theorem chain_branches {branches branches' : List (Fragment × Fragment)}
    (h : ArmsExceed branches branches') (other : Option Fragment) :
    (chain branches other).Exceeds (chain branches' other) :=
  (arms_branches h other).emit rfl

theorem chain_other (branches : List (Fragment × Fragment)) {other other' : Option Fragment}
    (h : OptionExceeds other other') : (chain branches other).Exceeds (chain branches other') :=
  (arms_other branches h).emit rfl

theorem loop_init (h : f.Exceeds f') (cond : Option Fragment) (body step : Fragment) :
    (loop f cond body step).Exceeds (loop f' cond body step) := by
  unfold Exceeds at h ⊢
  simp only [loop, length_emit, length_append, List.length_cons, List.length_nil]
  omega

theorem loop_cond (init : Fragment) {cond cond' : Option Fragment} (h : OptionExceeds cond cond')
    (body step : Fragment) : (loop init cond body step).Exceeds (loop init cond' body step) := by
  cases h with
  | some h =>
    unfold Exceeds at h ⊢
    simp only [loop, length_emit, length_append, List.length_cons, List.length_nil]
    omega

theorem loop_body (init : Fragment) (cond : Option Fragment) (h : f.Exceeds f') (step : Fragment) :
    (loop init cond f step).Exceeds (loop init cond f' step) := by
  unfold Exceeds at h ⊢
  cases cond <;>
    simp only [loop, length_emit, length_append, length_resolve, List.length_cons,
      List.length_nil] <;> omega

theorem loop_step (init : Fragment) (cond : Option Fragment) (body : Fragment) (h : f.Exceeds f') :
    (loop init cond body f).Exceeds (loop init cond body f') := by
  unfold Exceeds at h ⊢
  cases cond <;>
    simp only [loop, length_emit, length_append, length_resolve, List.length_cons,
      List.length_nil] <;> omega

end Exceeds
end Fragment

namespace Compiler

open Fragment (Exceeds OptionExceeds ArmsExceed)

namespace Exceeds

variable {f f' : Fragment}

theorem selectChain_subject (h : f.Exceeds f') (span : Span) (cases : List (Fragment × Fragment))
    (otherwise : Option Fragment) :
    (selectChain span f cases otherwise).Exceeds (selectChain span f' cases otherwise) :=
  (((Exceeds.append_right _ (h.emit rfl)).append_left _).emit rfl).mark _ _

theorem selectChain_cases (span : Span) (subject : Fragment)
    {cases cases' : List (Fragment × Fragment)} (h : ArmsExceed cases cases')
    (otherwise : Option Fragment) :
    (selectChain span subject cases otherwise).Exceeds
      (selectChain span subject cases' otherwise) := by
  refine ((Exceeds.append_right _ ?_).emit rfl).mark _ _
  cases h with
  | cond h => exact (Exceeds.chain_branches (.cond h) otherwise).discard
  | body h => exact (Exceeds.chain_branches (.body h) otherwise).discard
  | later h => exact (Exceeds.chain_branches (.later h) otherwise).discard

theorem selectChain_otherwise (span : Span) (subject : Fragment)
    (cases : List (Fragment × Fragment)) {otherwise otherwise' : Option Fragment}
    (h : OptionExceeds otherwise otherwise') :
    (selectChain span subject cases otherwise).Exceeds
      (selectChain span subject cases otherwise') := by
  refine ((Exceeds.append_right _ ?_).emit rfl).mark _ _
  split
  · cases h with
    | some h => exact h
  · exact (Exceeds.chain_other cases h).discard

theorem eachLoop_source (h : f.Exceeds f') (span : Span) (name : Text) (stmts : Fragment) :
    (eachLoop span name f stmts).Exceeds (eachLoop span name f' stmts) := by
  refine (Exceeds.loop_init (Exceeds.append_left ?_ _) _ _ _).mark _ _
  exact (Exceeds.assign_value (Exceeds.call_callee _ _ _ (h.member _ _)) _ _ _).discard

theorem eachLoop_stmts (span : Span) (name : Text) (source : Fragment) (h : f.Exceeds f') :
    (eachLoop span name source f).Exceeds (eachLoop span name source f') :=
  (Exceeds.loop_body _ _ (Exceeds.append_right _ h).inScope _).mark _ _

theorem repeatLoop_count (h : f.Exceeds f') (span : Span) (body : Fragment) :
    (repeatLoop span f body).Exceeds (repeatLoop span f' body) :=
  (Exceeds.loop_init (h.emit rfl) _ _ _).mark _ _

theorem repeatLoop_body (span : Span) (count : Fragment) (h : f.Exceeds f') :
    (repeatLoop span count f).Exceeds (repeatLoop span count f') :=
  (Exceeds.loop_body _ _ h _).mark _ _

/-- The statement that opens the exports is all that the first export has more than another. -/
theorem exportCode (span : Span) (names : List Text) :
    (exportCode span true names).Exceeds (exportCode span false names) := by
  have hnames : ∀ (names : List Text) {f f' : Fragment}, f.Exceeds f' →
      (names.foldl (fun acc name =>
        acc ++ (Fragment.assign span (Fragment.var span name)
          (some ((Fragment.var span Key.exports).emit [.string name])) .nearest).discard) f).Exceeds
      (names.foldl (fun acc name =>
        acc ++ (Fragment.assign span (Fragment.var span name)
          (some ((Fragment.var span Key.exports).emit [.string name])) .nearest).discard) f') := by
    intro names
    induction names with
    | nil => exact fun h => h
    | cons name rest ih => exact fun h => ih (h.append_left _)
  exact hnames names rfl

end Exceeds

/-!
# Generation with exports closed and open
-/

section
variable {α β : Type} {E : α → α → Prop} {F : β → β → Prop}

/-- What generation gives with exports closed, beside what it gives with exports open. -/
inductive Parts (E : α → α → Prop) :
    EStateM.Result Refusal Progress α → EStateM.Result Refusal Progress α → Prop
  | refused {e : Refusal} {p : Progress} {q : Array Problem} : Parts E (.error e p) (.error e ⟨q, true⟩)
  | closed {a : α} {q : Array Problem} : Parts E (.ok a ⟨q, false⟩) (.ok a ⟨q, true⟩)
  | opened {a a' : α} {q : Array Problem} (h : E a a') : Parts E (.ok a ⟨q, true⟩) (.ok a' ⟨q, true⟩)

/-- Without exports nothing depends on whether they are open; with exports the results are related,
and exports are open after it. -/
def Gen.Opens (E : α → α → Prop) (x : Gen α) : Prop :=
  ∀ q, Parts E (x ⟨q, false⟩) (x ⟨q, true⟩)

/-- Both generate alike where exports are open. -/
inductive Beside (E : α → α → Prop) :
    EStateM.Result Refusal Progress α → EStateM.Result Refusal Progress α → Prop
  | refused {e : Refusal} {q q' : Array Problem} : Beside E (.error e ⟨q, true⟩) (.error e ⟨q', true⟩)
  | ok {a a' : α} {q : Array Problem} (h : E a a') : Beside E (.ok a ⟨q, true⟩) (.ok a' ⟨q, true⟩)

def Gen.Beside (E : α → α → Prop) (x x' : Gen α) : Prop :=
  ∀ q, Compiler.Beside E (x ⟨q, true⟩) (x' ⟨q, true⟩)

theorem Gen.opens_pure (a : α) : Gen.Opens E (pure a) :=
  fun _ => .closed

theorem Gen.opens_throw (e : Refusal) : Gen.Opens E (throw e) :=
  fun _ => .refused

theorem Gen.beside_pure {a a' : α} (h : E a a') : Gen.Beside E (pure a) (pure a') :=
  fun _ => .ok h

/-- What comes first either leaves exports closed, and what follows decides, or has opened them, and
what follows is done with them open. -/
theorem Gen.Opens.bind {x : Gen α} {k : α → Gen β} (hx : Gen.Opens E x)
    (hk : ∀ a, Gen.Opens F (k a)) (hbeside : ∀ a a', E a a' → Gen.Beside F (k a) (k a')) :
    Gen.Opens F (x >>= k) := by
  intro q
  show Parts F (EStateM.bind x k ⟨q, false⟩) (EStateM.bind x k ⟨q, true⟩)
  unfold EStateM.bind
  have hparts := hx q
  generalize x ⟨q, false⟩ = r at hparts
  generalize x ⟨q, true⟩ = r' at hparts
  cases hparts with
  | refused => exact .refused
  | @closed a q' => exact hk a q'
  | @opened a a' q' h =>
    dsimp only
    have hnext := hbeside a a' h q'
    generalize k a ⟨q', true⟩ = s at hnext
    generalize k a' ⟨q', true⟩ = s' at hnext
    cases hnext with
    | refused => exact .refused
    | ok h => exact .opened h

/-- The same generation in front of both. -/
theorem Gen.Beside.after {x : Gen α} {k k' : α → Gen β} (hx : Gen.Opens E x)
    (hk : ∀ a, Gen.Beside F (k a) (k' a)) : Gen.Beside F (x >>= k) (x >>= k') := by
  intro q
  show Compiler.Beside F (EStateM.bind x k ⟨q, true⟩) (EStateM.bind x k' ⟨q, true⟩)
  unfold EStateM.bind
  have hparts := hx q
  generalize x ⟨q, false⟩ = r at hparts
  generalize x ⟨q, true⟩ = r' at hparts
  cases hparts with
  | refused => exact .refused
  | closed => exact hk _ _
  | opened => exact hk _ _

end

/-- A walk whose only use of the exports is that of one part. -/
theorem Gen.Opens.map {α β : Type} {E : α → α → Prop} {F : β → β → Prop} {x : Gen α} {k : α → β}
    (hx : Gen.Opens E x) (h : ∀ a a', E a a' → F (k a) (k a')) :
    Gen.Opens F (x >>= fun a => pure (k a)) :=
  hx.bind (fun _ => Gen.opens_pure _) fun a a' ha => Gen.beside_pure (h a a' ha)

/-- A walk over two parts. -/
theorem Gen.Opens.map₂ {α β γ : Type} {E : α → α → Prop} {F : β → β → Prop} {G : γ → γ → Prop}
    {x : Gen α} {y : Gen β} {k : α → β → γ} (hx : Gen.Opens E x) (hy : Gen.Opens F y)
    (hfirst : ∀ a a' b, E a a' → G (k a b) (k a' b))
    (hsecond : ∀ a b b', F b b' → G (k a b) (k a b')) :
    Gen.Opens G (x >>= fun a => y >>= fun b => pure (k a b)) :=
  hx.bind (fun a => hy.map fun b b' hb => hsecond a b b' hb) fun a a' ha =>
    Gen.Beside.after hy fun b => Gen.beside_pure (hfirst a a' b ha)

/-- Checks report problems and know nothing of exports. -/
def Gen.Reports (x : Gen Unit) : Prop :=
  Gen.Opens (fun _ _ => False) x

theorem reports_report (code : String) (span : Span) (message : Text) :
    Gen.Reports (report code span message) :=
  fun _ => .closed

theorem Gen.Reports.before {β : Type} {F : β → β → Prop} {x : Gen Unit} {k : Unit → Gen β}
    (hx : Gen.Reports x) (hk : Gen.Opens F (k ())) : Gen.Opens F (x >>= k) :=
  Gen.Opens.bind hx (fun _ => hk) fun _ _ h => absurd h id

theorem reports_checkDistinct (message : Text → Text) (code : String) (span : Span)
    (seen names : List Text) : Gen.Reports (checkDistinct message code span seen names) := by
  induction names generalizing seen with
  | nil => exact Gen.opens_pure ()
  | cons name rest ih =>
    rw [checkDistinct]
    split
    · exact (reports_report _ _ _).before (ih _)
    · exact ih _

theorem reports_checkTypeDef (span : Span) (name : Text) (fields : List Text) :
    Gen.Reports (checkTypeDef span name fields) := by
  unfold checkTypeDef
  split
  · exact (reports_report _ _ _).before (reports_checkDistinct _ _ _ _ _)
  · exact reports_checkDistinct _ _ _ _ _

theorem opens_importStmt (linker : Linker) (span : Span) (path : Text) (names : List Text) :
    Gen.Opens Exceeds (importStmt linker span path names) := by
  cases linker with
  | absent | closed => exact (reports_report _ _ _).before (Gen.opens_pure _)
  | modules => exact Gen.opens_pure _

theorem opens_exportStmt (linker : Linker) (span : Span) (names : List Text) :
    Gen.Opens Exceeds (exportStmt linker span names) := by
  cases linker with
  | absent | closed => exact (reports_report _ _ _).before (Gen.opens_pure _)
  | modules => exact fun q => .opened (((Exceeds.exportCode span names).emit rfl).mark _ _)

/-!
# The walk
-/

mutual

theorem opens_expr (linker : Linker) : ∀ e : Expr, Gen.Opens Exceeds (expr linker e)
  | .number .. | .text .. | .boolean .. | .null _ | .var .. => by
    rw [expr]
    exact Gen.opens_pure _
  | .list s items => by
    rw [expr]
    exact (opens_exprsBackward linker items).map fun _ _ h => h.list s _
  | .dict s entries => by
    rw [expr]
    exact (opens_entriesBackward linker entries).map fun _ _ h => h.dict s _
  | .binary s op left right => by
    rw [expr]
    exact (opens_expr linker left).map₂ (opens_expr linker right)
      (fun _ _ r h => h.binary_left s op r) fun l _ _ h => Exceeds.binary_right s op l h
  | .unary s op operand => by
    rw [expr]
    exact (opens_expr linker operand).map fun _ _ h => h.unary s op
  | .assign s target value scope => by
    rw [expr]
    exact (opens_expr linker value).map₂ (opens_assignTarget linker target)
      (fun _ _ t h => h.assign_value s t scope) fun v _ _ h => Exceeds.assign_target s v h scope
  | .call s callee args => by
    rw [expr]
    exact (opens_exprs linker args).map₂ (opens_expr linker callee)
      (fun _ _ c h => h.call_args s _ c) fun a _ _ h => Exceeds.call_callee s _ a h
  | .member s object name => by
    rw [expr]
    exact (opens_expr linker object).map fun _ _ h => h.member s name
  | .index s object key => by
    rw [expr]
    exact (opens_expr linker object).map₂ (opens_expr linker key)
      (fun _ _ k h => h.index_object s k) fun o _ _ h => Exceeds.index_key s o h
  | .func s name params body => by
    have hnamed : ∀ f f' : Fragment, f.Exceeds f' →
        ((if name.isEmpty then f else f.emit (Fragment.bindTop name .nearest)).mark "Func" s).Exceeds
          ((if name.isEmpty then f' else f'.emit (Fragment.bindTop name .nearest)).mark "Func" s) := by
      intro f f' h
      refine Exceeds.mark ?_ _ _
      split
      · exact h
      · exact h.emit rfl
    rw [expr]
    refine (reports_checkDistinct _ _ _ _ _).before ?_
    exact (opens_paramsBackward linker params).map₂ (opens_functionBody linker body)
      (fun _ _ b h => hnamed _ _ (h.function_params _ _ b))
      fun p _ _ h => hnamed _ _ (Exceeds.function_body p _ _ h)
  | .missing => by
    rw [expr]
    exact Gen.opens_throw _

theorem opens_assignTarget (linker : Linker) :
    ∀ e : Expr, Gen.Opens OptionExceeds (assignTarget linker e)
  | .var _ name => by
    rw [assignTarget]
    exact Gen.opens_pure _
  | .member _ object name => by
    rw [assignTarget]
    exact (opens_expr linker object).map fun _ _ h => .some (h.emit rfl)
  | .index _ object key => by
    rw [assignTarget]
    exact (opens_expr linker object).map₂ (opens_expr linker key)
      (fun _ _ k h => .some (h.append_left k)) fun o _ _ h => .some (Exceeds.append_right o h)
  | .missing => by
    rw [assignTarget]
    exact Gen.opens_throw _
  | .number .. | .text .. | .boolean .. | .null _ | .list .. | .dict .. | .binary .. | .unary ..
  | .assign .. | .call .. | .func .. => by
    simp only [assignTarget]
    exact (reports_report _ _ _).before (Gen.opens_pure _)

theorem opens_exprs (linker : Linker) : ∀ es : List Expr, Gen.Opens Exceeds (exprs linker es)
  | [] => by
    rw [exprs]
    exact Gen.opens_pure _
  | e :: rest => by
    rw [exprs]
    exact (opens_expr linker e).map₂ (opens_exprs linker rest) (fun _ _ g h => h.append_left g)
      fun f _ _ h => Exceeds.append_right f h

theorem opens_exprsBackward (linker : Linker) :
    ∀ es : List Expr, Gen.Opens Exceeds (exprsBackward linker es)
  | [] => by
    rw [exprsBackward]
    exact Gen.opens_pure _
  | e :: rest => by
    rw [exprsBackward]
    exact (opens_exprsBackward linker rest).map₂ (opens_expr linker e)
      (fun _ _ f h => h.append_left f) fun later _ _ h => Exceeds.append_right later h

theorem opens_entriesBackward (linker : Linker) :
    ∀ entries : List Entry, Gen.Opens Exceeds (entriesBackward linker entries)
  | [] => by
    rw [entriesBackward]
    exact Gen.opens_pure _
  | .mk key value :: rest => by
    rw [entriesBackward]
    refine (opens_entriesBackward linker rest).bind (fun later => ?_) fun later later' h => ?_
    · exact (opens_expr linker value).map₂ (opens_expr linker key)
        (fun _ _ k h => (Exceeds.append_right later h).append_left k)
        fun v _ _ h => Exceeds.append_right _ h
    · exact Gen.Beside.after (opens_expr linker value) fun v =>
        Gen.Beside.after (opens_expr linker key) fun k =>
          Gen.beside_pure ((h.append_left v).append_left k)

theorem opens_paramsBackward (linker : Linker) :
    ∀ params : List Param, Gen.Opens Exceeds (paramsBackward linker params)
  | [] => by
    rw [paramsBackward]
    exact Gen.opens_pure _
  | .mk name guard :: rest => by
    rw [paramsBackward]
    exact (opens_paramsBackward linker rest).map₂ (opens_guardExpr linker guard)
      (fun _ _ g h => (h.append_left g).emit rfl)
      fun later _ _ h => (Exceeds.append_right later h).emit rfl

theorem opens_guardExpr (linker : Linker) :
    ∀ guard : Option Expr, Gen.Opens Exceeds (guardExpr linker guard)
  | none => by
    rw [guardExpr]
    exact Gen.opens_pure _
  | some e => by
    rw [guardExpr]
    exact opens_expr linker e

theorem opens_functionBody (linker : Linker) :
    ∀ b : Block, Gen.Opens Exceeds (functionBody linker b)
  | .mk _ body => by
    rw [functionBody]
    refine (opens_stmts linker Place.top body).bind (fun f => ?_) fun f f' h => ?_
    · split
      · exact Gen.opens_pure _
      · exact Gen.opens_pure _
    · split
      · refine Gen.beside_pure ?_
        split
        · exact h
        · exact h.emit rfl
      · exact Gen.beside_pure (h.emit rfl)

theorem opens_stmts (linker : Linker) (place : Place) :
    ∀ body : List Stmt, Gen.Opens Exceeds (stmts linker place body)
  | [] => by
    rw [stmts]
    exact Gen.opens_pure _
  | s :: rest => by
    rw [stmts]
    exact (opens_stmt linker place s).map₂ (opens_stmts linker place rest)
      (fun _ _ g h => h.discard.append_left g) fun f _ _ h => Exceeds.append_right f.discard h

theorem opens_blockStmts (linker : Linker) (place : Place) :
    ∀ b : Block, Gen.Opens Exceeds (blockStmts linker place b)
  | .mk _ body => by
    rw [blockStmts]
    exact opens_stmts linker place body

theorem opens_block (linker : Linker) (place : Place) :
    ∀ b : Block, Gen.Opens Exceeds (block linker place b)
  | .mk _ body => by
    rw [block]
    exact (opens_stmts linker place.inScope body).map fun _ _ h => h.inScope

theorem opens_blockOption (linker : Linker) (place : Place) :
    ∀ b : Option Block, Gen.Opens OptionExceeds (blockOption linker place b)
  | none => by
    rw [blockOption]
    exact Gen.opens_pure _
  | some b => by
    rw [blockOption]
    exact (opens_block linker place b).map fun _ _ h => .some h

theorem opens_branches (linker : Linker) (place : Place) :
    ∀ bs : List Branch, Gen.Opens ArmsExceed (branches linker place bs)
  | [] => by
    rw [branches]
    exact Gen.opens_pure _
  | .mk cond body :: rest => by
    rw [branches]
    refine (opens_expr linker cond).bind (fun c => ?_) fun c c' h => ?_
    · exact (opens_block linker place body).map₂ (opens_branches linker place rest)
        (fun _ _ _ h => .body h) fun _ _ _ h => .later h
    · exact Gen.Beside.after (opens_block linker place body) fun b =>
        Gen.Beside.after (opens_branches linker place rest) fun others => Gen.beside_pure (.cond h)

theorem opens_cases (linker : Linker) (place : Place) :
    ∀ cs : List Case, Gen.Opens ArmsExceed (cases linker place cs)
  | [] => by
    rw [cases]
    exact Gen.opens_pure _
  | .mk values body :: rest => by
    rw [cases]
    refine (opens_alternatives linker none values).bind (fun test => ?_) fun test test' h => ?_
    · exact (opens_block linker place body).map₂ (opens_cases linker place rest)
        (fun _ _ _ h => .body h) fun _ _ _ h => .later h
    · refine Gen.Beside.after (opens_block linker place body) fun b =>
        Gen.Beside.after (opens_cases linker place rest) fun others => Gen.beside_pure ?_
      cases h with
      | some h => exact .cond h

theorem opens_alternatives (linker : Linker) (before : Option Fragment) :
    ∀ values : List Expr, Gen.Opens OptionExceeds (alternatives linker before values)
  | [] => by
    rw [alternatives]
    exact Gen.opens_pure _
  | v :: rest => by
    rw [alternatives]
    refine (opens_expr linker v).bind (fun f => opens_alternatives linker _ rest) fun f f' h => ?_
    refine beside_alternatives linker rest (.some ?_)
    have htest := Exceeds.binary_right v.span "==" (Fragment.var v.span hiddenMatch) h
    cases before with
    | none => exact htest
    | some t => exact Exceeds.binary_right v.span "or" t htest

/-- Where one of the values before had an export. -/
theorem beside_alternatives (linker : Linker) : ∀ (values : List Expr) {before before' : Option Fragment},
    OptionExceeds before before' → Gen.Beside OptionExceeds (alternatives linker before values)
      (alternatives linker before' values)
  | [], before, before', h => by
    rw [alternatives, alternatives]
    exact Gen.beside_pure h
  | v :: rest, before, before', h => by
    rw [alternatives, alternatives]
    refine Gen.Beside.after (opens_expr linker v) fun f => beside_alternatives linker rest ?_
    cases h with
    | some h => exact .some (h.binary_left v.span "or" _)

theorem opens_exprOption (linker : Linker) :
    ∀ e : Option Expr, Gen.Opens OptionExceeds (exprOption linker e)
  | none => by
    rw [exprOption]
    exact Gen.opens_pure _
  | some e => by
    rw [exprOption]
    exact (opens_expr linker e).map fun _ _ h => .some h

theorem opens_stmtOption (linker : Linker) (place : Place) :
    ∀ s : Option Stmt, Gen.Opens Exceeds (stmtOption linker place s)
  | none => by
    rw [stmtOption]
    exact Gen.opens_pure _
  | some s => by
    rw [stmtOption]
    exact (opens_stmt linker place s).map fun _ _ h => h.discard

theorem opens_stmt (linker : Linker) (place : Place) :
    ∀ s : Stmt, Gen.Opens Exceeds (stmt linker place s)
  | .expr _ x => by
    rw [stmt]
    exact opens_expr linker x
  | .block body => by
    rw [stmt]
    exact (opens_block linker place body).map fun _ _ h => (h.emit rfl).mark _ _
  | .cond s bs otherwise => by
    rw [stmt]
    exact (opens_branches linker place bs).map₂ (opens_blockOption linker place otherwise)
      (fun _ _ other h => (Exceeds.chain_branches h other).mark _ _)
      fun arms _ _ h => (Exceeds.chain_other arms h).mark _ _
  | .whileLoop s cond body => by
    rw [stmt]
    exact (opens_expr linker cond).map₂ (opens_blockStmts linker place.inLoop body)
      (fun _ _ _ h => (Exceeds.loop_cond _ (.some h) _ _).mark _ _)
      fun _ _ _ h => (Exceeds.loop_body _ _ h.inScope _).mark _ _
  | .forLoop s init cond step body => by
    rw [stmt]
    refine (opens_stmtOption linker place.inScope init).bind (fun i => ?_) fun i i' h => ?_
    · refine (opens_exprOption linker cond).bind (fun c => ?_) fun c c' h => ?_
      · exact (opens_blockStmts linker place.inLoop body).map₂
          (opens_stmtOption linker place.inScope step)
          (fun _ _ _ h => (Exceeds.loop_body _ _ h.inScope _).mark _ _)
          fun _ _ _ h => (Exceeds.loop_step _ _ _ h).mark _ _
      · exact Gen.Beside.after (opens_blockStmts linker place.inLoop body) fun b =>
          Gen.Beside.after (opens_stmtOption linker place.inScope step) fun n =>
            Gen.beside_pure ((Exceeds.loop_cond _ h _ _).mark _ _)
    · exact Gen.Beside.after (opens_exprOption linker cond) fun c =>
        Gen.Beside.after (opens_blockStmts linker place.inLoop body) fun b =>
          Gen.Beside.after (opens_stmtOption linker place.inScope step) fun n =>
            Gen.beside_pure ((Exceeds.loop_init h _ _ _).mark _ _)
  | .loop s count body => by
    rw [stmt]
    exact (opens_expr linker count).map₂ (opens_blockStmts linker place.inLoop body)
      (fun _ _ b h => Exceeds.repeatLoop_count h s _)
      fun c _ _ h => Exceeds.repeatLoop_body s c h.inScope
  | .each s name source body => by
    rw [stmt]
    exact (opens_expr linker source).map₂ (opens_blockStmts linker place.inLoop body)
      (fun _ _ b h => Exceeds.eachLoop_source h s name b)
      fun x _ _ h => Exceeds.eachLoop_stmts s name x h
  | .select s subject cs otherwise => by
    rw [stmt]
    refine (opens_expr linker subject).bind (fun x => ?_) fun x x' h => ?_
    · split
      · exact fun _ => .refused
      · exact (opens_cases linker place.inScope cs).map₂
          (opens_blockOption linker place.inScope otherwise)
          (fun _ _ other h => Exceeds.selectChain_cases s x h other)
          fun tests _ _ h => Exceeds.selectChain_otherwise s x tests h
    · split
      · exact fun _ => .refused
      · exact Gen.Beside.after (opens_cases linker place.inScope cs) fun tests =>
          Gen.Beside.after (opens_blockOption linker place.inScope otherwise) fun other =>
            Gen.beside_pure (Exceeds.selectChain_subject h s tests other)
  | .impl s method type params body => by
    rw [stmt]
    split
    · exact (reports_report _ _ _).before (Gen.opens_pure _)
    · refine (reports_checkDistinct _ _ _ _ _).before ?_
      exact (opens_paramsBackward linker params).map₂ (opens_functionBody linker body)
        (fun _ _ b h => ((h.function_params _ _ b).emit rfl).mark _ _)
        fun p _ _ h => ((Exceeds.function_body p _ _ h).emit rfl).mark _ _
  | .typeDef s name fields => by
    rw [stmt]
    exact (reports_checkTypeDef s name fields).before (Gen.opens_pure _)
  | .ret s value => by
    rw [stmt]
    refine (opens_exprOption linker value).map fun v v' h => ?_
    cases h with
    | some h => exact (h.emit rfl).mark _ _
  | .leave s => by
    rw [stmt]
    exact Gen.opens_pure _
  | .again s => by
    rw [stmt]
    exact Gen.opens_pure _
  | .imports s path names => by
    rw [stmt]
    exact opens_importStmt linker s path names
  | .exports s names => by
    rw [stmt]
    exact opens_exportStmt linker s names
  | .missing => by
    rw [stmt]
    exact Gen.opens_throw _

end

end Compiler
end ScriptEngine
