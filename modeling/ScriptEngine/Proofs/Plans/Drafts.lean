import ScriptEngine.Proofs.Compiler.Heights
import ScriptEngine.Proofs.Plans.Building

/-!
# Compiling follows plans

A tree that lacks no node is never refused, and the code generated for it is that of its plan, with
the same exports opened on the way. Where no problem is reported, every node of the plan has an
instruction of its own.
-/

namespace ScriptEngine

/-!
# Trees that lack nothing
-/

mutual

/-- No node is missing in the expression. -/
def Expr.whole : Expr → Bool
  | .number .. | .text .. | .boolean .. | .null _ | .var .. => true
  | .list _ items => Expr.allWhole items
  | .dict _ entries => Entry.allWhole entries
  | .binary _ _ left right => left.whole && right.whole
  | .unary _ _ operand => operand.whole
  | .assign _ target value _ => target.whole && value.whole
  | .call _ callee args => callee.whole && Expr.allWhole args
  | .member _ object _ => object.whole
  | .index _ object key => object.whole && key.whole
  | .func _ _ params body => Param.allWhole params && body.whole
  | .missing => false

def Expr.allWhole : List Expr → Bool
  | [] => true
  | e :: rest => e.whole && Expr.allWhole rest

def Expr.wholeOption : Option Expr → Bool
  | none => true
  | some e => e.whole

def Entry.allWhole : List Entry → Bool
  | [] => true
  | .mk key value :: rest => key.whole && (value.whole && Entry.allWhole rest)

def Param.allWhole : List Param → Bool
  | [] => true
  | .mk _ guard :: rest => Expr.wholeOption guard && Param.allWhole rest

def Block.whole : Block → Bool
  | .mk _ body => Stmt.allWhole body

def Block.wholeOption : Option Block → Bool
  | none => true
  | some b => b.whole

def Branch.allWhole : List Branch → Bool
  | [] => true
  | .mk cond body :: rest => cond.whole && (body.whole && Branch.allWhole rest)

def Case.allWhole : List Case → Bool
  | [] => true
  | .mk values body :: rest => Expr.allWhole values && (body.whole && Case.allWhole rest)

def Stmt.whole : Stmt → Bool
  | .expr _ x => x.whole
  | .block body => body.whole
  | .cond _ branches otherwise => Branch.allWhole branches && Block.wholeOption otherwise
  | .whileLoop _ cond body => cond.whole && body.whole
  | .forLoop _ init cond step body =>
    Stmt.wholeOption init && (Expr.wholeOption cond && (Stmt.wholeOption step && body.whole))
  | .loop _ count body => count.whole && body.whole
  | .each _ _ source body => source.whole && body.whole
  | .select _ subject cases otherwise =>
    subject.whole && (Case.allWhole cases && Block.wholeOption otherwise)
  | .impl _ _ _ params body => Param.allWhole params && body.whole
  | .typeDef .. | .leave _ | .again _ | .imports .. | .exports .. => true
  | .ret _ value => Expr.wholeOption value
  | .missing => false

def Stmt.wholeOption : Option Stmt → Bool
  | none => true
  | some s => s.whole

def Stmt.allWhole : List Stmt → Bool
  | [] => true
  | s :: rest => s.whole && Stmt.allWhole rest

end

namespace Compiler

/-!
# Generators and drafts
-/

section
variable {α β γ δ : Type} {clean : Prop} {R : α → β → Prop} {R' : γ → δ → Prop}

/-- The generator answers with something that corresponds to what the draft says, opens exports as the
draft does, and takes no problem back. Trees that are `clean` give no problem. -/
def Gen.Follows (clean : Prop) (x : Gen α) (d : Draft β) (R : α → β → Prop) : Prop :=
  ∀ p, ∃ a p', x p = .ok a p' ∧ p'.exporting = (d p.exporting).2 ∧
    p.problems.size ≤ p'.problems.size ∧
      ((clean → p'.problems.size = p.problems.size) → R a (d p.exporting).1)

/-- The generator answers, and at most reports problems. -/
def Gen.Checks (x : Gen Unit) : Prop :=
  ∀ p, ∃ p', x p = .ok () p' ∧ p'.exporting = p.exporting ∧ p.problems.size ≤ p'.problems.size

theorem Gen.follows_pure {a : α} {b : β} (h : R a b) : Gen.Follows clean (pure a) (pure b) R :=
  fun p => ⟨a, p, rfl, rfl, Nat.le_refl _, fun _ => h⟩

theorem bind_of_ok {x : Gen α} {k : α → Gen γ} {p p' : Progress} {a : α} (h : x p = .ok a p') :
    (x >>= k) p = k a p' := by
  show EStateM.bind x k p = _
  unfold EStateM.bind
  rw [h]

theorem Gen.Follows.bind {x : Gen α} {d : Draft β} {k : α → Gen γ} {k' : β → Draft δ}
    (hx : Gen.Follows clean x d R)
    (hk : ∀ a b, Gen.Follows clean (k a) (k' b) fun c d => R a b → R' c d) :
    Gen.Follows clean (x >>= k) (d >>= k') R' := by
  intro p
  obtain ⟨a, p₁, ha, hp₁, hle₁, hR⟩ := hx p
  obtain ⟨c, p₂, hc, hp₂, hle₂, hR'⟩ := hk a (d p.exporting).1 p₁
  rw [hp₁] at hp₂ hR'
  refine ⟨c, p₂, (bind_of_ok ha).trans hc, hp₂, Nat.le_trans hle₁ hle₂, ?_⟩
  intro hsame
  apply hR'
  · intro hclean
    have := hsame hclean
    omega
  · apply hR
    intro hclean
    have := hsame hclean
    omega

theorem Gen.Follows.mono {x : Gen α} {d : Draft β} {S : α → β → Prop} (hx : Gen.Follows clean x d R)
    (h : ∀ a b, R a b → S a b) : Gen.Follows clean x d S := by
  intro p
  obtain ⟨a, p', ha, hp', hle, hR⟩ := hx p
  exact ⟨a, p', ha, hp', hle, fun hsame => h _ _ (hR hsame)⟩

theorem Gen.Follows.map {x : Gen α} {d : Draft β} {S : γ → β → Prop} {g : α → γ}
    (hx : Gen.Follows clean x d R) (h : ∀ a b, R a b → S (g a) b) :
    Gen.Follows clean (x >>= fun a => pure (g a)) d S := by
  intro p
  obtain ⟨a, p', ha, hp', hle, hR⟩ := hx p
  exact ⟨g a, p', bind_of_ok ha, hp', hle, fun hsame => h _ _ (hR hsame)⟩

/-- Checks come before what is generated. -/
theorem Gen.Checks.follows {x : Gen Unit} {k : Unit → Gen α} {d : Draft β} (hx : Gen.Checks x)
    (hk : Gen.Follows clean (k ()) d R) : Gen.Follows clean (x >>= k) d R := by
  intro p
  obtain ⟨p₁, hrun, hp₁, hle₁⟩ := hx p
  obtain ⟨a, p₂, ha, hp₂, hle₂, hR⟩ := hk p₁
  rw [hp₁] at hp₂ hR
  refine ⟨a, p₂, (bind_of_ok hrun).trans ha, hp₂, Nat.le_trans hle₁ hle₂, ?_⟩
  intro hsame
  apply hR
  intro hclean
  have := hsame hclean
  omega

theorem Gen.checks_pure : Gen.Checks (pure ()) :=
  fun p => ⟨p, rfl, rfl, Nat.le_refl _⟩

theorem Gen.Checks.andThen {x : Gen Unit} {k : Unit → Gen Unit} (hx : Gen.Checks x)
    (hk : Gen.Checks (k ())) : Gen.Checks (x >>= k) := by
  intro p
  obtain ⟨p₁, hrun, hp₁, hle₁⟩ := hx p
  obtain ⟨p₂, hrun', hp₂, hle₂⟩ := hk p₁
  exact ⟨p₂, (bind_of_ok hrun).trans hrun', hp₂.trans hp₁, Nat.le_trans hle₁ hle₂⟩

theorem checks_report (code : String) (span : Span) (message : Text) :
    Gen.Checks (report code span message) := by
  intro p
  exact ⟨_, rfl, rfl, by simp⟩

/-- A tree with a problem is not clean. -/
theorem follows_report {x : Gen α} {d : Draft β} (code : String) (span : Span) (message : Text)
    (hx : Gen.Follows clean x d fun a b => ¬ clean → R a b) :
    Gen.Follows clean (report code span message >>= fun _ => x) d R := by
  intro p
  obtain ⟨a, p', ha, hp', hle, hR⟩ := hx
    { p with problems := p.problems.push ⟨code, some span, message, Hint.here.name⟩ }
  rw [Array.size_push] at hle hR
  refine ⟨a, p', ha, hp', Nat.le_of_succ_le hle, ?_⟩
  intro hsame
  have hdirty : ¬ clean := by
    intro hclean
    have := hsame hclean
    omega
  exact hR (fun hclean => absurd hclean hdirty) hdirty

end

theorem checks_checkDistinct (message : Text → Text) (code : String) (span : Span)
    (seen names : List Text) : Gen.Checks (checkDistinct message code span seen names) := by
  induction names generalizing seen with
  | nil => exact Gen.checks_pure
  | cons name rest ih =>
    rw [checkDistinct]
    split
    · exact (checks_report _ _ _).andThen (ih _)
    · exact ih _

theorem checks_checkTypeDef (span : Span) (name : Text) (fields : List Text) :
    Gen.Checks (checkTypeDef span name fields) := by
  unfold checkTypeDef
  split
  · exact (checks_report _ _ _).andThen (checks_checkDistinct _ _ _ _ _)
  · exact checks_checkDistinct _ _ _ _ _

theorem checks_checkParams (span : Span) (selfType : Text) (names : List Text) :
    Gen.Checks (checkParams span selfType names) :=
  checks_checkDistinct _ _ _ _ _

/-!
# Places
-/

/-- The loop of a place is not deeper than the place. -/
def Place.Fits (place : Place) : Prop :=
  ∀ d, place.loop = some d → d ≤ place.depth

theorem Place.fits_top : Place.top.Fits :=
  fun _ h => by cases h

theorem Place.fits_inLoop (place : Place) : place.inLoop.Fits := by
  intro d h
  cases h
  exact Nat.le_succ _

theorem Place.Fits.inScope {place : Place} (h : place.Fits) : place.inScope.Fits :=
  fun d hd => Nat.le_succ_of_le (h d hd)

theorem Place.Fits.closes_inScope {place : Place} (h : place.Fits) :
    place.inScope.closes = place.closes.map (· + 1) := by
  obtain ⟨depth, loop⟩ := place
  cases loop with
  | none => rfl
  | some d =>
    show some (depth + 1 - d) = some (depth - d + 1)
    rw [Nat.sub_add_comm (h d rfl)]

theorem Place.closes_inLoop (place : Place) : place.inLoop.closes = some 1 := by
  show some (place.depth + 2 - (place.depth + 1)) = some 1
  congr 1
  omega

/-!
# The walk
-/

variable {clean : Prop}

/-- The plan of an expression, which does not depend on the loop around it. -/
def Anywhere (clean : Prop) (f : Fragment) (a : Plan) : Prop :=
  ∀ scopes, a.Makes clean scopes f

/-- The plan of a statement at a place. -/
def At (clean : Prop) (place : Place) (f : Fragment) (a : Plan) : Prop :=
  a.Makes clean place.closes f

/-- The plan of statements at a place, out of which no jump leads. -/
def EndedAt (clean : Prop) (place : Place) (f : Fragment) (a : Plan) : Prop :=
  a.Makes clean place.closes f ∧ a.ended = true

def ArmsAt (clean : Prop) (place : Place) (fs : List (Fragment × Fragment)) (as : List (Plan × Plan)) :
    Prop :=
  Plan.Makes.Arms clean place.closes as fs

def OptionalAt (clean : Prop) (place : Place) (f : Option Fragment) (a : Option Plan) : Prop :=
  Plan.Makes.Optional clean place.closes a f

/-- Code that may be absent, wherever it stands. -/
def OptionalAnywhere (clean : Prop) (f : Option Fragment) (a : Option Plan) : Prop :=
  ∀ scopes, Plan.Makes.Optional clean scopes a f

/-- What an assignment writes to, which is there if the tree is clean. -/
def Target (clean : Prop) (f : Option Fragment) (a : Option Plan) : Prop :=
  OptionalAnywhere clean f a ∧ (clean → a.isSome = true)

theorem At.inLoop {place : Place} {f : Fragment} {a : Plan} (h : At clean place.inLoop f a) :
    a.Makes clean (some 1) f := by
  unfold At at h
  rwa [place.closes_inLoop] at h

/-- The body of a loop, in its own scope. -/
theorem At.loopBody {place : Place} {f : Fragment} {a : Plan} (h : At clean place.inLoop f a) :
    (Plan.scope a).Makes clean (some 0) (Fragment.inScope f) :=
  Plan.Makes.inScope h.inLoop

theorem At.inScope {place : Place} (hplace : place.Fits) {f : Fragment} {a : Plan}
    (h : At clean place.inScope f a) : a.Makes clean (place.closes.map (· + 1)) f := by
  unfold At at h
  rwa [hplace.closes_inScope] at h

theorem ended_emit {a : Plan} {code : List Instruction} (hcode : code.isEmpty = false) :
    (a.emit code).ended = true := by
  cases code with
  | nil => cases hcode
  | cons => simp [Plan.emit, Plan.ended, Plan.width, HAppend.hAppend, Append.append]

theorem ended_discard_append {a b : Plan} (hb : b.ended = true) : (a.discard ++ b).ended = true := by
  have hdiscard : a.discard.ended = true := ended_emit rfl
  show (b.ended && (decide (0 < b.width none) || a.discard.ended)) = true
  rw [hb, hdiscard, Bool.or_true, Bool.and_self]

/-- No value of a case is missing where no node is. -/
theorem lacksValue_eq_false {cs : List Case} (h : Case.allWhole cs = true) : lacksValue cs = false := by
  have hvalues : ∀ values : List Expr, Expr.allWhole values = true →
      ∀ e ∈ values, e.whole = true := by
    intro values
    induction values with
    | nil => exact fun _ _ he => absurd he List.not_mem_nil
    | cons v rest ih =>
      intro h
      obtain ⟨hv, hrest⟩ := Bool.and_eq_true_iff.mp h
      exact List.forall_mem_cons.mpr ⟨hv, ih hrest⟩
  induction cs with
  | nil => rfl
  | cons c rest ih =>
    obtain ⟨values, body⟩ := c
    obtain ⟨hthis, h⟩ := Bool.and_eq_true_iff.mp h
    obtain ⟨-, hrest⟩ := Bool.and_eq_true_iff.mp h
    unfold lacksValue at ih ⊢
    rw [List.any_cons, ih hrest, Bool.or_false]
    apply List.any_eq_false.mpr
    intro e he
    have hwhole := hvalues values hthis e he
    cases e <;> simp_all [Expr.whole]

theorem follows_importStmt (linker : Linker) (s : Span) (path : Text) (names : List Text)
    {place : Place} :
    Gen.Follows clean (importStmt linker s path names) (pure (Plan.importStmt linker s path names))
      (At clean place) := by
  cases linker with
  | absent | closed =>
    apply (checks_report _ _ _).follows
    exact Gen.follows_pure (Plan.Makes.empty.linked s "Import")
  | modules => exact Gen.follows_pure ((Plan.Makes.importCode s path names).linked s "Import")

theorem follows_exportStmt (linker : Linker) (s : Span) (names : List Text) {place : Place} :
    Gen.Follows clean (exportStmt linker s names) (Plan.exportStmt linker s names) (At clean place) := by
  cases linker with
  | absent | closed =>
    apply (checks_report _ _ _).follows
    exact Gen.follows_pure (Plan.Makes.empty.linked s "Export")
  | modules =>
    intro p
    exact ⟨_, _, rfl, rfl, Nat.le_refl _, fun _ => (Plan.Makes.exportCode s _ names).linked s "Export"⟩

mutual

theorem follows_expr (linker : Linker) : ∀ e : Expr, e.whole = true →
    Gen.Follows clean (expr linker e) (e.plan linker) (Anywhere clean)
  | .number s x, _ => by
    rw [expr, Expr.plan]
    exact Gen.follows_pure fun _ => .number s x
  | .text s t, _ => by
    rw [expr, Expr.plan]
    exact Gen.follows_pure fun _ => .text s t
  | .boolean s b, _ => by
    rw [expr, Expr.plan]
    exact Gen.follows_pure fun _ => .boolean s b
  | .null s, _ => by
    rw [expr, Expr.plan]
    exact Gen.follows_pure fun _ => .null s
  | .var s name, _ => by
    rw [expr, Expr.plan]
    exact Gen.follows_pure fun _ => .var s name
  | .list s items, h => by
    rw [expr, Expr.plan]
    apply (follows_exprsBackward linker items h).bind
    intro f a
    exact Gen.follows_pure fun ha scopes => (ha scopes).list s _
  | .dict s entries, h => by
    rw [expr, Expr.plan]
    apply (follows_entriesBackward linker entries h).bind
    intro f a
    exact Gen.follows_pure fun ha scopes => (ha scopes).dict s _
  | .binary s op left right, h => by
    rw [expr, Expr.plan]
    obtain ⟨hleft, hright⟩ := Bool.and_eq_true_iff.mp h
    apply (follows_expr linker left hleft).bind
    intro f a
    apply (follows_expr linker right hright).bind
    intro g b
    exact Gen.follows_pure fun hb ha scopes => (ha scopes).binary (hb scopes) s op
  | .unary s op operand, h => by
    rw [expr, Expr.plan]
    apply (follows_expr linker operand h).bind
    intro f a
    exact Gen.follows_pure fun ha scopes => (ha scopes).unary s op
  | .assign s target value scope, h => by
    rw [expr, Expr.plan]
    obtain ⟨htarget, hvalue⟩ := Bool.and_eq_true_iff.mp h
    apply (follows_expr linker value hvalue).bind
    intro f a
    apply (follows_assignTarget linker target htarget).bind
    intro g b
    apply Gen.follows_pure
    intro hb ha scopes
    have htarget := hb.1 scopes
    cases htarget with
    | none => exact (ha scopes).assignNothing (fun h => by cases hb.2 h) s scope
    | some htarget => exact (ha scopes).assign htarget s scope
  | .call s callee args, h => by
    rw [expr, Expr.plan]
    obtain ⟨hcallee, hargs⟩ := Bool.and_eq_true_iff.mp h
    apply (follows_exprs linker args hargs).bind
    intro f a
    apply (follows_expr linker callee hcallee).bind
    intro g b
    exact Gen.follows_pure fun hb ha scopes => (ha scopes).call (hb scopes) s _
  | .member s object name, h => by
    rw [expr, Expr.plan]
    apply (follows_expr linker object h).bind
    intro f a
    exact Gen.follows_pure fun ha scopes => (ha scopes).member s name
  | .index s object key, h => by
    rw [expr, Expr.plan]
    obtain ⟨hobject, hkey⟩ := Bool.and_eq_true_iff.mp h
    apply (follows_expr linker object hobject).bind
    intro f a
    apply (follows_expr linker key hkey).bind
    intro g b
    exact Gen.follows_pure fun hb ha scopes => (ha scopes).index (hb scopes) s
  | .func s name params body, h => by
    rw [expr, Expr.plan]
    obtain ⟨hparams, hbody⟩ := Bool.and_eq_true_iff.mp h
    apply (checks_checkParams _ _ _).follows
    apply (follows_paramsBackward linker params hparams).bind
    intro f a
    apply (follows_functionBody linker body hbody).bind
    intro g b
    apply Gen.follows_pure
    intro hb ha scopes
    have hfunction := (ha scopes).function hb.1 hb.2 params.length Text.empty
    refine Plan.Makes.node ?_ (by split <;> simp [Plan.function]) _ _
    split
    · exact hfunction
    · exact hfunction.bindTop name .nearest
  | .missing, h => by cases h

theorem follows_assignTarget (linker : Linker) : ∀ e : Expr, e.whole = true →
    Gen.Follows clean (assignTarget linker e) (e.planTarget linker) (Target clean)
  | .var s name, _ => by
    rw [assignTarget, Expr.planTarget]
    exact Gen.follows_pure ⟨fun _ => .some (.varTarget name), fun _ => rfl⟩
  | .member s object name, h => by
    rw [assignTarget, Expr.planTarget]
    apply (follows_expr linker object h).bind
    intro f a
    exact Gen.follows_pure fun ha => ⟨fun scopes => .some ((ha scopes).emit rfl), fun _ => rfl⟩
  | .index s object key, h => by
    rw [assignTarget, Expr.planTarget]
    obtain ⟨hobject, hkey⟩ := Bool.and_eq_true_iff.mp h
    apply (follows_expr linker object hobject).bind
    intro f a
    apply (follows_expr linker key hkey).bind
    intro g b
    exact Gen.follows_pure fun hb ha => ⟨fun scopes => .some ((ha scopes).append (hb scopes)), fun _ => rfl⟩
  | .number .., _ | .text .., _ | .boolean .., _ | .null _, _ | .list .., _ | .dict .., _ | .binary .., _
  | .unary .., _ | .assign .., _ | .call .., _ | .func .., _ => by
    rw [assignTarget, Expr.planTarget]
    · apply follows_report
      exact Gen.follows_pure fun hdirty => ⟨fun _ => .none, fun h => absurd h hdirty⟩
    all_goals simp
  | .missing, h => by cases h

theorem follows_exprs (linker : Linker) : ∀ es : List Expr, Expr.allWhole es = true →
    Gen.Follows clean (exprs linker es) (Expr.plans linker es) (Anywhere clean)
  | [], _ => by
    rw [exprs, Expr.plans]
    exact Gen.follows_pure fun _ => .empty
  | e :: rest, h => by
    rw [exprs, Expr.plans]
    obtain ⟨he, hrest⟩ := Bool.and_eq_true_iff.mp h
    apply (follows_expr linker e he).bind
    intro f a
    apply (follows_exprs linker rest hrest).bind
    intro g b
    exact Gen.follows_pure fun hb ha scopes => (ha scopes).append (hb scopes)

theorem follows_exprsBackward (linker : Linker) : ∀ es : List Expr, Expr.allWhole es = true →
    Gen.Follows clean (exprsBackward linker es) (Expr.plansBackward linker es) (Anywhere clean)
  | [], _ => by
    rw [exprsBackward, Expr.plansBackward]
    exact Gen.follows_pure fun _ => .empty
  | e :: rest, h => by
    rw [exprsBackward, Expr.plansBackward]
    obtain ⟨he, hrest⟩ := Bool.and_eq_true_iff.mp h
    apply (follows_exprsBackward linker rest hrest).bind
    intro f a
    apply (follows_expr linker e he).bind
    intro g b
    exact Gen.follows_pure fun hb ha scopes => (ha scopes).append (hb scopes)

theorem follows_entriesBackward (linker : Linker) : ∀ es : List Entry, Entry.allWhole es = true →
    Gen.Follows clean (entriesBackward linker es) (Entry.plansBackward linker es) (Anywhere clean)
  | [], _ => by
    rw [entriesBackward, Entry.plansBackward]
    exact Gen.follows_pure fun _ => .empty
  | .mk key value :: rest, h => by
    rw [entriesBackward, Entry.plansBackward]
    obtain ⟨hkey, h⟩ := Bool.and_eq_true_iff.mp h
    obtain ⟨hvalue, hrest⟩ := Bool.and_eq_true_iff.mp h
    apply (follows_entriesBackward linker rest hrest).bind
    intro f a
    apply (follows_expr linker value hvalue).bind
    intro g b
    apply (follows_expr linker key hkey).bind
    intro i c
    exact Gen.follows_pure fun hc hb ha scopes => ((ha scopes).append (hb scopes)).append (hc scopes)

theorem follows_paramsBackward (linker : Linker) : ∀ ps : List Param, Param.allWhole ps = true →
    Gen.Follows clean (paramsBackward linker ps) (Param.plansBackward linker ps) (Anywhere clean)
  | [], _ => by
    rw [paramsBackward, Param.plansBackward]
    exact Gen.follows_pure fun _ => .empty
  | .mk name guard :: rest, h => by
    rw [paramsBackward, Param.plansBackward]
    obtain ⟨hguard, hrest⟩ := Bool.and_eq_true_iff.mp h
    apply (follows_paramsBackward linker rest hrest).bind
    intro f a
    apply (follows_guardExpr linker guard hguard).bind
    intro g b
    exact Gen.follows_pure fun hb ha scopes => ((ha scopes).append (hb scopes)).emit rfl

theorem follows_guardExpr (linker : Linker) : ∀ guard : Option Expr, Expr.wholeOption guard = true →
    Gen.Follows clean (guardExpr linker guard) (Expr.planGuard linker guard) (Anywhere clean)
  | none, _ => by
    rw [guardExpr, Expr.planGuard]
    exact Gen.follows_pure fun _ => .pushNull
  | some e, h => by
    rw [guardExpr, Expr.planGuard]
    exact follows_expr linker e h

theorem follows_functionBody (linker : Linker) : ∀ b : Block, b.whole = true →
    Gen.Follows clean (functionBody linker b) (b.planBody linker) (EndedAt clean Place.top)
  | .mk _ body, h => by
    rw [functionBody, Block.planBody]
    apply (follows_stmts linker body Place.fits_top h).bind
    intro f a
    cases body.getLast? with
    | none => exact Gen.follows_pure fun ha => ⟨ha.1.emit rfl, ended_emit rfl⟩
    | some last =>
      cases hlast : last.isReturn with
      | true =>
        simp only [Option.any_some, hlast, if_true]
        exact Gen.follows_pure fun ha => ha
      | false =>
        simp only [Option.any_some, hlast, Bool.false_eq_true, if_false]
        exact Gen.follows_pure fun ha => ⟨ha.1.emit rfl, ended_emit rfl⟩

theorem follows_stmts (linker : Linker) {place : Place} : ∀ body : List Stmt, place.Fits →
    Stmt.allWhole body = true →
    Gen.Follows clean (stmts linker place body) (Stmt.plans linker body) (EndedAt clean place)
  | [], _, _ => by
    rw [stmts, Stmt.plans]
    exact Gen.follows_pure ⟨.empty, rfl⟩
  | s :: rest, hplace, h => by
    rw [stmts, Stmt.plans]
    obtain ⟨hs, hrest⟩ := Bool.and_eq_true_iff.mp h
    apply (follows_stmt linker s hplace hs).bind
    intro f a
    apply (follows_stmts linker rest hplace hrest).bind
    intro g b
    exact Gen.follows_pure fun hb ha => ⟨ha.discard.append hb.1, ended_discard_append hb.2⟩

theorem follows_blockStmts (linker : Linker) {place : Place} : ∀ b : Block, place.Fits →
    b.whole = true → Gen.Follows clean (blockStmts linker place b) (b.plan linker) (At clean place)
  | .mk _ body, hplace, h => by
    rw [blockStmts, Block.plan]
    exact (follows_stmts linker body hplace h).mono fun _ _ hbody => hbody.1

theorem follows_block (linker : Linker) {place : Place} : ∀ b : Block, place.Fits → b.whole = true →
    Gen.Follows clean (block linker place b) (b.plan linker) fun f a => At clean place f (.scope a)
  | .mk _ body, hplace, h => by
    rw [block, Block.plan]
    apply (follows_stmts linker body hplace.inScope h).map
    intro f a ha
    have hmakes := ha.1
    rw [hplace.closes_inScope] at hmakes
    exact hmakes.inScope

theorem follows_blockOption (linker : Linker) {place : Place} : ∀ b : Option Block, place.Fits →
    Block.wholeOption b = true →
    Gen.Follows clean (blockOption linker place b) (Block.planOption linker b) (OptionalAt clean place)
  | none, _, _ => by
    rw [blockOption, Block.planOption]
    exact Gen.follows_pure .none
  | some b, hplace, h => by
    rw [blockOption, Block.planOption]
    apply (follows_block linker b hplace h).bind
    intro f a
    exact Gen.follows_pure .some

theorem follows_branches (linker : Linker) {place : Place} : ∀ bs : List Branch, place.Fits →
    Branch.allWhole bs = true →
    Gen.Follows clean (branches linker place bs) (Branch.plans linker bs) (ArmsAt clean place)
  | [], _, _ => by
    rw [branches, Branch.plans]
    exact Gen.follows_pure .nil
  | .mk cond body :: rest, hplace, h => by
    rw [branches, Branch.plans]
    obtain ⟨hcond, h⟩ := Bool.and_eq_true_iff.mp h
    obtain ⟨hbody, hrest⟩ := Bool.and_eq_true_iff.mp h
    apply (follows_expr linker cond hcond).bind
    intro f a
    apply (follows_block linker body hplace hbody).bind
    intro g b
    apply (follows_branches linker rest hplace hrest).bind
    intro fs as
    exact Gen.follows_pure fun has hb ha => .cons (ha _) hb has

theorem follows_cases (linker : Linker) {place : Place} : ∀ cs : List Case, place.Fits →
    Case.allWhole cs = true →
    Gen.Follows clean (cases linker place cs) (Case.plans linker cs) (ArmsAt clean place)
  | [], _, _ => by
    rw [cases, Case.plans]
    exact Gen.follows_pure .nil
  | .mk values body :: rest, hplace, h => by
    rw [cases, Case.plans]
    obtain ⟨hvalues, h⟩ := Bool.and_eq_true_iff.mp h
    obtain ⟨hbody, hrest⟩ := Bool.and_eq_true_iff.mp h
    apply (follows_alternatives linker values hvalues).bind
    intro f a
    apply (follows_block linker body hplace hbody).bind
    intro g b
    apply (follows_cases linker rest hplace hrest).bind
    intro fs as
    apply Gen.follows_pure
    intro has hb ha
    refine .cons ?_ hb has
    have htest := ha (fun _ => .none) place.closes
    cases htest with
    | none => exact .boolean _ false
    | some htest => exact htest

theorem follows_alternatives (linker : Linker) {before : Option Fragment} {before' : Option Plan} :
    ∀ values : List Expr, Expr.allWhole values = true →
    Gen.Follows clean (alternatives linker before values) (Expr.planAlternatives linker before' values)
      fun f a => OptionalAnywhere clean before before' → OptionalAnywhere clean f a
  | [], _ => by
    rw [alternatives, Expr.planAlternatives]
    exact Gen.follows_pure fun hbefore => hbefore
  | v :: rest, h => by
    rw [alternatives, Expr.planAlternatives]
    obtain ⟨hv, hrest⟩ := Bool.and_eq_true_iff.mp h
    apply (follows_expr linker v hv).bind
    intro f a
    apply (follows_alternatives linker rest hrest).mono
    intro _ _ hall ha hbefore
    apply hall
    intro scopes
    have htest := (ha scopes).caseTest v.span
    have hfirst := hbefore scopes
    cases hfirst with
    | none => exact .some htest
    | some hfirst => exact .some (hfirst.binary htest _ _)

theorem follows_exprOption (linker : Linker) : ∀ e : Option Expr, Expr.wholeOption e = true →
    Gen.Follows clean (exprOption linker e) (Expr.planOption linker e) (OptionalAnywhere clean)
  | none, _ => by
    rw [exprOption, Expr.planOption]
    exact Gen.follows_pure fun _ => .none
  | some e, h => by
    rw [exprOption, Expr.planOption]
    apply (follows_expr linker e h).bind
    intro f a
    exact Gen.follows_pure fun ha scopes => .some (ha scopes)

theorem follows_stmtOption (linker : Linker) {place : Place} : ∀ s : Option Stmt, place.Fits →
    Stmt.wholeOption s = true →
    Gen.Follows clean (stmtOption linker place s) (Stmt.planOption linker s) (At clean place)
  | none, _, _ => by
    rw [stmtOption, Stmt.planOption]
    exact Gen.follows_pure .empty
  | some s, hplace, h => by
    rw [stmtOption, Stmt.planOption]
    apply (follows_stmt linker s hplace h).bind
    intro f a
    exact Gen.follows_pure fun ha => ha.discard

theorem follows_stmt (linker : Linker) {place : Place} : ∀ s : Stmt, place.Fits → s.whole = true →
    Gen.Follows clean (stmt linker place s) (s.plan linker) (At clean place)
  | .expr _ x, _, h => by
    rw [stmt, Stmt.plan]
    exact (follows_expr linker x h).mono fun _ _ ha => ha _
  | .block body, hplace, h => by
    rw [stmt, Stmt.plan]
    apply (follows_block linker body hplace h).bind
    intro f a
    exact Gen.follows_pure fun ha => (ha.emit rfl).node (by simp) _ _
  | .cond s bs otherwise, hplace, h => by
    rw [stmt, Stmt.plan]
    obtain ⟨hbs, hotherwise⟩ := Bool.and_eq_true_iff.mp h
    apply (follows_branches linker bs hplace hbs).bind
    intro fs as
    apply (follows_blockOption linker otherwise hplace hotherwise).bind
    intro g b
    exact Gen.follows_pure fun hb has => (Plan.Makes.chain has hb).node (by simp [Plan.chain]) _ _
  | .whileLoop s cond body, hplace, h => by
    rw [stmt, Stmt.plan]
    obtain ⟨hcond, hbody⟩ := Bool.and_eq_true_iff.mp h
    apply (follows_expr linker cond hcond).bind
    intro f a
    apply (follows_blockStmts linker body place.fits_inLoop hbody).bind
    intro g b
    exact Gen.follows_pure fun hb ha => (Plan.Makes.loop .empty (ha _) hb.loopBody .empty).node rfl _ _
  | .forLoop s init cond step body, hplace, h => by
    rw [stmt, Stmt.plan]
    obtain ⟨hinit, h⟩ := Bool.and_eq_true_iff.mp h
    obtain ⟨hcond, h⟩ := Bool.and_eq_true_iff.mp h
    obtain ⟨hstep, hbody⟩ := Bool.and_eq_true_iff.mp h
    apply (follows_stmtOption linker init hplace.inScope hinit).bind
    intro f a
    apply (follows_exprOption linker cond hcond).bind
    intro g b
    apply (follows_blockStmts linker body place.fits_inLoop hbody).bind
    intro i c
    apply (follows_stmtOption linker step hplace.inScope hstep).bind
    intro j d
    apply Gen.follows_pure
    intro hd hc hb ha
    have htest := hb (place.closes.map (· + 1))
    refine Plan.Makes.node ?_ rfl _ _
    cases htest with
    | none => exact .endless (ha.inScope hplace) hc.loopBody (hd.inScope hplace)
    | some htest => exact .loop (ha.inScope hplace) htest hc.loopBody (hd.inScope hplace)
  | .loop s count body, hplace, h => by
    rw [stmt, Stmt.plan]
    obtain ⟨hcount, hbody⟩ := Bool.and_eq_true_iff.mp h
    apply (follows_expr linker count hcount).bind
    intro f a
    apply (follows_blockStmts linker body place.fits_inLoop hbody).bind
    intro g b
    exact Gen.follows_pure fun hb ha => (ha _).repeatLoop hb.loopBody s
  | .each s name source body, hplace, h => by
    rw [stmt, Stmt.plan]
    obtain ⟨hsource, hbody⟩ := Bool.and_eq_true_iff.mp h
    apply (follows_expr linker source hsource).bind
    intro f a
    apply (follows_blockStmts linker body place.fits_inLoop hbody).bind
    intro g b
    exact Gen.follows_pure fun hb ha => (ha _).eachLoop hb.inLoop s name
  | .select s subject cs otherwise, hplace, h => by
    rw [stmt, Stmt.plan]
    obtain ⟨hsubject, h⟩ := Bool.and_eq_true_iff.mp h
    obtain ⟨hcs, hotherwise⟩ := Bool.and_eq_true_iff.mp h
    apply (follows_expr linker subject hsubject).bind
    intro f a
    rw [if_neg (by rw [lacksValue_eq_false hcs]; decide)]
    apply (follows_cases linker cs hplace.inScope hcs).bind
    intro fs as
    apply (follows_blockOption linker otherwise hplace.inScope hotherwise).bind
    intro g b
    apply Gen.follows_pure
    intro hb has ha
    unfold OptionalAt at hb
    unfold ArmsAt at has
    rw [hplace.closes_inScope] at hb has
    exact (ha _).selectChain has hb s
  | .impl s method type params body, hplace, h => by
    rw [stmt, Stmt.plan]
    obtain ⟨hparams, hbody⟩ := Bool.and_eq_true_iff.mp h
    split
    · apply (checks_report _ _ _).follows
      exact Gen.follows_pure .pushNull
    · apply (checks_checkParams _ _ _).follows
      apply (follows_paramsBackward linker params hparams).bind
      intro f a
      apply (follows_functionBody linker body hbody).bind
      intro g b
      exact Gen.follows_pure fun hb ha =>
        (((ha _).function hb.1 hb.2 params.length type).bindTop _ .inner).node (by simp [Fragment.bindTop]) _ _
  | .typeDef s name fields, _, _ => by
    rw [stmt, Stmt.plan]
    apply (checks_checkTypeDef _ _ _).follows
    exact Gen.follows_pure (.typeDef s name fields)
  | .ret s value, _, h => by
    rw [stmt, Stmt.plan]
    apply (follows_exprOption linker value h).bind
    intro f a
    apply Gen.follows_pure
    intro ha
    have hvalue := ha place.closes
    cases hvalue with
    | none => exact (Plan.Makes.pushNull.emit rfl).node (by simp) _ _
    | some hvalue => exact (hvalue.emit rfl).node (by simp) _ _
  | .leave s, _, _ => by
    rw [stmt, Stmt.plan]
    exact Gen.follows_pure ((Plan.Makes.exit false).node rfl _ _)
  | .again s, _, _ => by
    rw [stmt, Stmt.plan]
    exact Gen.follows_pure ((Plan.Makes.exit true).node rfl _ _)
  | .imports s path names, _, _ => by
    rw [stmt, Stmt.plan]
    exact follows_importStmt linker s path names
  | .exports s names, _, _ => by
    rw [stmt, Stmt.plan]
    exact follows_exportStmt linker s names
  | .missing, _, h => by cases h

end

end Compiler
end ScriptEngine
